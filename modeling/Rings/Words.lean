import Mathlib.Data.BitVec
import Mathlib.Data.Nat.Digits.Lemmas
import Mathlib.Tactic

/-!
Numbers as lists of words.

A list of `w`-bit words, the least significant first, is read as a number in base `2 ^ w`.
Lists of one length are determined by their numbers, the words complemented are what is
missing to the top, and a bit of the number is a bit of one word.
-/

namespace Rings.Words

variable {w : ℕ}

/-- The number of a list of words, the least significant first. -/
def value (l : List (BitVec w)) : ℕ := Nat.ofDigits (2 ^ w) (l.map BitVec.toNat)

@[simp] lemma value_nil : value ([] : List (BitVec w)) = 0 := rfl

lemma value_cons (x : BitVec w) (l : List (BitVec w)) :
    value (x :: l) = x.toNat + 2 ^ w * value l := by
  simp [value, Nat.ofDigits_cons]

lemma value_lt (l : List (BitVec w)) : value l < (2 ^ w) ^ l.length := by
  induction l with
  | nil => simp
  | cons x l ih =>
    have hx := x.isLt
    rw [value_cons, List.length_cons, pow_succ']
    calc x.toNat + 2 ^ w * value l < 2 ^ w + 2 ^ w * value l := by omega
      _ = 2 ^ w * (value l + 1) := by ring
      _ ≤ 2 ^ w * (2 ^ w) ^ l.length := Nat.mul_le_mul_left _ ih

@[simp] lemma value_replicate_zero (n : ℕ) : value (List.replicate n (0 : BitVec w)) = 0 := by
  induction n with
  | zero => rfl
  | succ n ih =>
    rw [List.replicate_succ, value_cons, ih]
    simp

lemma value_injective {l r : List (BitVec w)} (hlength : l.length = r.length)
    (h : value l = value r) : l = r := by
  induction l generalizing r with
  | nil => exact (List.eq_nil_of_length_eq_zero hlength.symm).symm
  | cons x l ih =>
    obtain _ | ⟨y, r⟩ := r
    · cases hlength
    · rw [value_cons, value_cons] at h
      have hx := x.isLt
      have hy := y.isLt
      have hlow : x.toNat = y.toNat := by
        have := congrArg (· % 2 ^ w) h
        simpa [Nat.add_mul_mod_self_left, Nat.mod_eq_of_lt hx, Nat.mod_eq_of_lt hy] using this
      have hhigh : value l = value r := by
        rw [hlow] at h
        exact Nat.eq_of_mul_eq_mul_left (Nat.two_pow_pos w) (Nat.add_left_cancel h)
      rw [BitVec.eq_of_toNat_eq hlow, ih (by simpa using hlength) hhigh]

/-- A number and its complement are one short of the top. -/
lemma value_map_not (l : List (BitVec w)) :
    value (l.map (~~~ ·)) + value l + 1 = (2 ^ w) ^ l.length := by
  induction l with
  | nil => simp
  | cons x l ih =>
    have hx := x.isLt
    rw [List.map_cons, value_cons, value_cons, List.length_cons, pow_succ', ← ih,
      BitVec.toNat_not]
    have hword : 2 ^ w - 1 - x.toNat + x.toNat + 1 = 2 ^ w := by omega
    calc 2 ^ w - 1 - x.toNat + 2 ^ w * value (l.map (~~~ ·)) + (x.toNat + 2 ^ w * value l) + 1
        = (2 ^ w - 1 - x.toNat + x.toNat + 1) +
            (2 ^ w * value (l.map (~~~ ·)) + 2 ^ w * value l) := by omega
      _ = 2 ^ w * (value (l.map (~~~ ·)) + value l + 1) := by rw [hword]; ring

/-- A bit of the number is a bit of the word it falls in. -/
lemma testBit_value (hw : 0 < w) (l : List (BitVec w)) (i : ℕ) :
    (value l).testBit i = (l.getD (i / w) 0).getLsbD (i % w) := by
  induction l generalizing i with
  | nil => simp
  | cons x l ih =>
    rw [value_cons, Nat.add_comm, Nat.testBit_two_pow_mul_add _ x.isLt]
    by_cases hi : i < w
    · rw [if_pos hi, Nat.div_eq_of_lt hi, Nat.mod_eq_of_lt hi]
      rfl
    · have hsub : i = (i - w) + w := by omega
      have hdiv : i / w = (i - w) / w + 1 := by
        conv_lhs => rw [hsub]
        exact Nat.add_div_right _ hw
      have hmod : i % w = (i - w) % w := by
        conv_lhs => rw [hsub]
        exact Nat.add_mod_right _ _
      rw [if_neg hi, ih, hdiv, hmod, List.getD_cons_succ]

/-- Setting a bit of the word it falls in sets that bit of the number. -/
lemma value_modify_or (hw : 0 < w) {l : List (BitVec w)} {i : ℕ} (hi : i / w < l.length) :
    value (l.modify (i / w) (· ||| 1#w <<< (i % w))) = value l ||| 2 ^ i := by
  refine Nat.eq_of_testBit_eq fun j => ?_
  rw [Nat.testBit_or, Nat.testBit_two_pow, testBit_value hw, testBit_value hw]
  have hmod := Nat.mod_lt i hw
  simp only [List.getD_eq_getElem?_getD, List.getElem?_modify]
  by_cases hword : i / w = j / w
  · have hij : (i % w = j % w) ↔ i = j := by
      have hi' := Nat.div_add_mod i w
      have hj' := Nat.div_add_mod j w
      rw [hword] at hi'
      constructor <;> intro h <;> omega
    rw [← hword, List.getElem?_eq_getElem hi]
    simp only [if_true, Option.map_eq_map, Option.map_some, Option.getD_some, BitVec.getLsbD_or]
    congr 1
    have htwo : 1#w <<< (i % w) = BitVec.twoPow w (i % w) := rfl
    rw [htwo, BitVec.getLsbD_twoPow, decide_eq_true hmod, Bool.true_and]
    simp only [hij]
  · have hne : i ≠ j := by
      rintro rfl
      exact hword rfl
    simp [hword, hne]

end Rings.Words
