import Mathlib.Data.List.Induction
import Mathlib.Data.Nat.Bitwise
import Mathlib.Logic.Equiv.Basic
import Mathlib.Tactic.Ring

/-!
Fixed-width fields of a byte string: reading takes a field off the front, writing puts it there,
and each undoes the other. Numbers are written by their digits, the most significant first.
-/

namespace Rings

variable {σ α β : Type*} {m n : ℕ}

/-- A field of exactly `n` symbols. -/
structure FixedCodec (σ : Type*) (n : ℕ) (α : Type*) where
  write : α → List σ
  read : List σ → Option (α × List σ)
  length_write : ∀ a, (write a).length = n
  read_write : ∀ a rest, read (write a ++ rest) = some (a, rest)
  write_of_read : ∀ {w a rest}, read w = some (a, rest) → w = write a ++ rest
  read_isSome : ∀ {w}, n ≤ w.length → (read w).isSome

namespace FixedCodec

def take (σ : Type*) (n : ℕ) : FixedCodec σ n (Vector σ n) where
  write v := v.toList
  read w := if h : n ≤ w.length then some (⟨⟨w.take n⟩, by simpa using h⟩, w.drop n) else none
  length_write v := by simp
  read_write v rest := by
    have hlen : v.toList.length = n := by simp
    rw [dif_pos (by simp), Option.some.injEq, Prod.mk.injEq]
    constructor
    · apply Vector.toList_inj.1
      change (v.toList ++ rest).take n = v.toList
      rw [List.take_left' hlen]
    · rw [List.drop_left' hlen]
  write_of_read {w a rest} h := by
    split at h
    · simp only [Option.some.injEq, Prod.mk.injEq] at h
      obtain ⟨rfl, rfl⟩ := h
      exact (List.take_append_drop n w).symm
    · cases h
  read_isSome {w} h := by simp [h]

def pair (a : FixedCodec σ m α) (b : FixedCodec σ n β) : FixedCodec σ (m + n) (α × β) where
  write p := a.write p.1 ++ b.write p.2
  read w := (a.read w).bind fun x => (b.read x.2).map fun y => ((x.1, y.1), y.2)
  length_write p := by rw [List.length_append, a.length_write, b.length_write]
  read_write p rest := by
    rw [List.append_assoc, a.read_write, Option.bind_some, b.read_write, Option.map_some]
  write_of_read {w p rest} h := by
    obtain ⟨⟨x, mid⟩, hx, h⟩ := Option.bind_eq_some_iff.1 h
    obtain ⟨⟨y, rest'⟩, hy, h⟩ := Option.map_eq_some_iff.1 h
    cases h
    rw [a.write_of_read hx, List.append_assoc]
    exact congrArg _ (b.write_of_read hy)
  read_isSome {w} h := by
    obtain ⟨⟨x, mid⟩, hx⟩ := Option.isSome_iff_exists.1 (a.read_isSome (w := w) (by omega))
    have hw := congrArg List.length (a.write_of_read hx)
    rw [List.length_append, a.length_write] at hw
    rw [hx, Option.bind_some, Option.isSome_map]
    exact b.read_isSome (by change n ≤ mid.length; omega)

def map (c : FixedCodec σ n α) (e : α ≃ β) : FixedCodec σ n β where
  write b := c.write (e.symm b)
  read w := (c.read w).map fun x => (e x.1, x.2)
  length_write b := c.length_write _
  read_write b rest := by rw [c.read_write, Option.map_some, e.apply_symm_apply]
  write_of_read {w b rest} h := by
    obtain ⟨⟨x, rest'⟩, hx, h⟩ := Option.map_eq_some_iff.1 h
    cases h
    rw [c.write_of_read hx, e.symm_apply_apply]
  read_isSome {w} h := by rw [Option.isSome_map]; exact c.read_isSome h

/-- Read `k` fields in a row. -/
def readMany (c : FixedCodec σ n α) : ℕ → List σ → Option (List α × List σ)
  | 0, w => some ([], w)
  | k + 1, w => (c.read w).bind fun x => (readMany c k x.2).map fun y => (x.1 :: y.1, y.2)

section

variable (c : FixedCodec σ n α)

lemma readMany_write (l : List α) (rest : List σ) :
    c.readMany l.length (l.flatMap c.write ++ rest) = some (l, rest) := by
  induction l with
  | nil => rfl
  | cons a l ih =>
    rw [List.length_cons, readMany, List.flatMap_cons, List.append_assoc, c.read_write,
      Option.bind_some, ih, Option.map_some]

variable {c}

lemma write_of_readMany {k : ℕ} {w rest : List σ} {l : List α}
    (h : c.readMany k w = some (l, rest)) : w = l.flatMap c.write ++ rest ∧ l.length = k := by
  induction k generalizing w l with
  | zero =>
    cases h
    exact ⟨rfl, rfl⟩
  | succ k ih =>
    obtain ⟨⟨x, mid⟩, hx, h⟩ := Option.bind_eq_some_iff.1 h
    obtain ⟨⟨ys, rest'⟩, hy, h⟩ := Option.map_eq_some_iff.1 h
    cases h
    obtain ⟨hmid, hlen⟩ := ih hy
    constructor
    · rw [c.write_of_read hx, List.flatMap_cons, List.append_assoc]
      exact congrArg _ hmid
    · rw [List.length_cons, hlen]

lemma readMany_isSome {k : ℕ} {w : List σ} (h : k * n ≤ w.length) : (c.readMany k w).isSome := by
  induction k generalizing w with
  | zero => rfl
  | succ k ih =>
    rw [Nat.succ_mul] at h
    obtain ⟨⟨x, mid⟩, hx⟩ := Option.isSome_iff_exists.1 (c.read_isSome (w := w) (by omega))
    have hw := congrArg List.length (c.write_of_read hx)
    rw [List.length_append, c.length_write] at hw
    rw [readMany, hx, Option.bind_some, Option.isSome_map]
    exact ih (by change k * n ≤ mid.length; omega)

lemma length_flatMap_write (l : List α) : (l.flatMap c.write).length = l.length * n := by
  induction l with
  | nil => simp
  | cons a l ih =>
    rw [List.flatMap_cons, List.length_append, c.length_write, ih, List.length_cons]
    ring

end

/-- Exactly `k` fields. -/
def many (c : FixedCodec σ n α) (k : ℕ) : FixedCodec σ (k * n) (Vector α k) where
  write v := v.toList.flatMap c.write
  read w := (c.readMany k w).bind fun x =>
    if h : x.1.length = k then some (⟨⟨x.1⟩, h⟩, x.2) else none
  length_write v := by rw [length_flatMap_write]; simp
  read_write v rest := by
    have hlen : v.toList.length = k := by simp
    have h := readMany_write c v.toList rest
    rw [hlen] at h
    rw [h, Option.bind_some, dif_pos hlen]
    rfl
  write_of_read {w v rest} h := by
    obtain ⟨⟨l, rest'⟩, hl, h⟩ := Option.bind_eq_some_iff.1 h
    split at h
    · cases h
      exact (write_of_readMany hl).1
    · cases h
  read_isSome {w} h := by
    obtain ⟨⟨l, rest⟩, hl⟩ := Option.isSome_iff_exists.1 (readMany_isSome h (c := c))
    rw [hl, Option.bind_some, dif_pos (write_of_readMany hl).2]
    rfl

def readAll (c : FixedCodec σ n α) (w : List σ) : Option α :=
  (c.read w).bind fun x => if x.2.isEmpty then some x.1 else none

variable {c : FixedCodec σ n α}

lemma read_eq_some {w rest : List σ} {a : α} : c.read w = some (a, rest) ↔ w = c.write a ++ rest :=
  ⟨c.write_of_read, fun h => h ▸ c.read_write a rest⟩

lemma readAll_eq_some {w : List σ} {a : α} : c.readAll w = some a ↔ c.write a = w := by
  constructor
  · intro h
    obtain ⟨⟨x, rest⟩, hx, h⟩ := Option.bind_eq_some_iff.1 h
    cases rest with
    | nil =>
      cases h
      rw [c.write_of_read hx, List.append_nil]
    | cons b rest => cases h
  · rintro rfl
    have h := c.read_write a []
    rw [List.append_nil] at h
    rw [readAll, h]
    rfl

@[simp] lemma readAll_write (a : α) : c.readAll (c.write a) = some a := readAll_eq_some.2 rfl

lemma write_injective : Function.Injective c.write := fun a b h =>
  Option.some.inj ((readAll_write a).symm.trans (h ▸ readAll_write b))

/-- A string reads as one field exactly when it has the width of the field. -/
lemma readAll_isSome_iff {w : List σ} : (c.readAll w).isSome ↔ w.length = n := by
  constructor
  · intro h
    obtain ⟨a, ha⟩ := Option.isSome_iff_exists.1 h
    rw [← readAll_eq_some.1 ha, c.length_write]
  · intro h
    obtain ⟨⟨a, rest⟩, ha⟩ := Option.isSome_iff_exists.1 (c.read_isSome h.ge)
    have hw := congrArg List.length (c.write_of_read ha)
    rw [List.length_append, c.length_write] at hw
    have hrest : rest = [] := List.eq_nil_of_length_eq_zero (by omega)
    subst hrest
    rw [readAll, ha]
    rfl

lemma exists_of_length {w : List σ} (h : w.length = n) : ∃ a, c.write a = w := by
  obtain ⟨a, ha⟩ := Option.isSome_iff_exists.1 ((readAll_isSome_iff (c := c)).2 h)
  exact ⟨a, readAll_eq_some.1 ha⟩

lemma readAll_eq_none {w : List σ} : c.readAll w = none ↔ w.length ≠ n := by
  rw [← Option.not_isSome_iff_eq_none, readAll_isSome_iff]

end FixedCodec

/-! ### Digits -/

/-- The last `n` digits of `x`, the most significant first. -/
def toDigits (w : ℕ) : ℕ → ℕ → List (BitVec w)
  | 0, _ => []
  | n + 1, x => toDigits w n (x / 2 ^ w) ++ [BitVec.ofNat w x]

def ofDigits {w : ℕ} (l : List (BitVec w)) : ℕ := l.foldl (fun x d => x * 2 ^ w + d.toNat) 0

section

variable {w : ℕ}

@[simp] lemma length_toDigits (x : ℕ) : (toDigits w n x).length = n := by
  induction n generalizing x with
  | zero => rfl
  | succ n ih => rw [toDigits, List.length_append, ih, List.length_singleton]

lemma ofDigits_concat (l : List (BitVec w)) (d : BitVec w) :
    ofDigits (l ++ [d]) = ofDigits l * 2 ^ w + d.toNat := by
  rw [ofDigits, List.foldl_append]
  rfl

lemma ofDigits_toDigits (x : ℕ) : ofDigits (toDigits w n x) = x % 2 ^ (w * n) := by
  induction n generalizing x with
  | zero => simp [toDigits, ofDigits, Nat.mod_one]
  | succ n ih =>
    rw [toDigits, ofDigits_concat, ih, BitVec.toNat_ofNat, Nat.mul_succ, Nat.add_comm (w * n) w,
      Nat.pow_add, Nat.mod_mul]
    ring

lemma toDigits_ofDigits (l : List (BitVec w)) : toDigits w l.length (ofDigits l) = l := by
  induction l using List.reverseRecOn with
  | nil => rfl
  | append_singleton l d ih =>
    have hd : d.toNat < 2 ^ w := d.isLt
    rw [List.length_append, List.length_singleton, toDigits, ofDigits_concat, Nat.add_comm,
      Nat.add_mul_div_right _ _ (Nat.two_pow_pos w), Nat.div_eq_of_lt hd, Nat.zero_add, ih]
    congr 2
    apply BitVec.eq_of_toNat_eq
    rw [BitVec.toNat_ofNat, Nat.add_mul_mod_self_right, Nat.mod_eq_of_lt hd]

lemma toDigits_xor (x y : ℕ) :
    toDigits w n (x ^^^ y) = List.zipWith (· ^^^ ·) (toDigits w n x) (toDigits w n y) := by
  induction n generalizing x y with
  | zero => rfl
  | succ n ih =>
    rw [toDigits, Nat.xor_div_two_pow, ih, toDigits, toDigits,
      List.zipWith_append (by simp), BitVec.ofNat_xor]
    rfl

/-- A number of `w * n` bits as its `n` digits. -/
def digitsEquiv (w n : ℕ) {m : ℕ} (hm : m = w * n) : Vector (BitVec w) n ≃ BitVec m where
  toFun v := BitVec.ofNat m (ofDigits v.toList)
  invFun x := ⟨⟨toDigits w n x.toNat⟩, by simp⟩
  left_inv v := by
    apply Vector.toList_inj.1
    change toDigits w n (BitVec.ofNat m (ofDigits v.toList)).toNat = v.toList
    have hlen : v.toList.length = n := by simp
    have h := toDigits_ofDigits v.toList
    rw [hlen] at h
    rw [BitVec.toNat_ofNat, hm, ← ofDigits_toDigits, h, h]
  right_inv x := by
    apply BitVec.eq_of_toNat_eq
    change (BitVec.ofNat m (ofDigits (toDigits w n x.toNat))).toNat = x.toNat
    rw [BitVec.toNat_ofNat, ofDigits_toDigits, ← hm, Nat.mod_mod, Nat.mod_eq_of_lt x.isLt]

end

/-- A big-endian number of `n` bytes. -/
def FixedCodec.bigEndian (n : ℕ) {m : ℕ} (hm : m = 8 * n) :
    FixedCodec (BitVec 8) n (BitVec m) := (take (BitVec 8) n).map (digitsEquiv 8 n hm)

end Rings
