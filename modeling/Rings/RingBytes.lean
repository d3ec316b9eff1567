import Mathlib.Algebra.Group.MinimalAxioms
import Rings.Did
import Rings.Words

/-!
The ring `Z / 2^160` on big-endian byte arrays.

An identifier is twenty bytes, the most significant first. Its sum, its negation, its powers of
two and its fractions of the circle are computed byte by byte and bit by bit; read as residues
they are the ring's own, so everything proved of the residues holds of the bytes.
-/

namespace Rings

/-- An identifier as it is stored: twenty bytes, the most significant first. -/
structure H160 where
  bytes : List (BitVec 8)
  length : bytes.length = 20
deriving DecidableEq

/-- A 32-bit word other than zero. -/
structure NonZeroU32 where
  get : BitVec 32
  pos : 0 < get.toNat

def NonZeroU32.new (n : BitVec 32) : Option NonZeroU32 :=
  if h : 0 < n.toNat then some ⟨n, h⟩ else none

inductive AffineError where
  | invalidAffineScalar
deriving DecidableEq

namespace H160

def zero : H160 := ⟨List.replicate 20 0, List.length_replicate ..⟩

/-- One byte of a sum, and the carry into the next. -/
def addByte (lhs rhs : BitVec 8) (carry : BitVec 16) : BitVec 8 × BitVec 16 :=
  let sum := lhs.setWidth 16 + rhs.setWidth 16 + carry
  (sum.setWidth 8, sum >>> 8)

/-- The loop of `add_mod`, from the least significant byte on. -/
def addLoop : List (BitVec 8) → List (BitVec 8) → BitVec 16 → List (BitVec 8)
  | lhs :: l, rhs :: r, carry =>
    let (low, carry) := addByte lhs rhs carry
    low :: addLoop l r carry
  | _, _, _ => []

lemma length_addLoop (l r : List (BitVec 8)) (carry : BitVec 16) :
    (addLoop l r carry).length = min l.length r.length := by
  induction l generalizing r carry with
  | nil => simp [addLoop]
  | cons x l ih =>
    cases r with
    | nil => simp [addLoop]
    | cons y r => simp [addLoop, ih]

def addMod (a b : H160) : H160 :=
  ⟨(addLoop a.bytes.reverse b.bytes.reverse 0).reverse, by simp [length_addLoop, a.length, b.length]⟩

/-- The second loop of `additive_inverse`: the carry alone runs through the bytes. -/
def carryLoop : List (BitVec 8) → BitVec 16 → List (BitVec 8)
  | [], _ => []
  | byte :: l, carry =>
    let sum := byte.setWidth 16 + carry
    sum.setWidth 8 :: carryLoop l (sum >>> 8)

lemma length_carryLoop (l : List (BitVec 8)) (carry : BitVec 16) :
    (carryLoop l carry).length = l.length := by
  induction l generalizing carry with
  | nil => rfl
  | cons x l ih => simp [carryLoop, ih]

/-- Two's complement over the twenty bytes. -/
def additiveInverse (a : H160) : H160 :=
  ⟨(carryLoop (a.bytes.map (~~~ ·)).reverse 1).reverse, by simp [length_carryLoop, a.length]⟩

/-- Sets a bit of the ring element; past the width, nothing. -/
def setRingBit (a : H160) (bit : ℕ) : H160 :=
  if bit / 8 ≤ 20 - 1 then
    ⟨a.bytes.modify (20 - 1 - bit / 8) (· ||| 1#8 <<< (bit % 8)), by simp [a.length]⟩
  else a

def powerOfTwo (bit : ℕ) : H160 := if bit ≥ ringBits then zero else zero.setRingBit bit

/-- One bit of the long division: the remainder and the bytes after it. -/
def dyadicStep (denominator : ℕ) (s : ℕ × H160) (bit : ℕ) : ℕ × H160 :=
  let remainder := s.1 * 2 % 2 ^ 64
  if remainder ≥ denominator then (remainder - denominator, s.2.setRingBit bit)
  else (remainder, s.2)

/-- The long division after its first `steps` bits, from the top. -/
def dyadicAfter (numerator : BitVec 32) (denominator : NonZeroU32) (steps : ℕ) : ℕ × H160 :=
  ((List.range ringBits).reverse.take steps).foldl (dyadicStep denominator.get.toNat)
    (numerator.toNat % denominator.get.toNat, zero)

def dyadicFraction (numerator : BitVec 32) (denominator : NonZeroU32) : H160 :=
  (dyadicAfter numerator denominator ringBits).2

instance : Zero H160 := ⟨zero⟩
instance : Add H160 := ⟨addMod⟩
instance : Neg H160 := ⟨additiveInverse⟩
instance : Sub H160 := ⟨fun a b => a + -b⟩

/-- Rotate an identifier into a vector of `scalar` placements. -/
def rotateAffine (a : H160) (scalar : BitVec 16) : Except AffineError (List H160) :=
  match NonZeroU32.new (scalar.setWidth 32) with
  | none => .error .invalidAffineScalar
  | some denominator =>
    .ok ((List.range scalar.toNat).map fun i => a + dyadicFraction (BitVec.ofNat 32 i) denominator)

/-! ### The number of an identifier -/

def toNat (a : H160) : ℕ := Words.value a.bytes.reverse

/-- The residue of an identifier. -/
def toDid (a : H160) : Did := BitVec.ofNat 160 a.toNat

lemma toNat_lt (a : H160) : a.toNat < 2 ^ 160 := by
  have h := Words.value_lt a.bytes.reverse
  rw [List.length_reverse, a.length, ← pow_mul] at h
  exact h

lemma toNat_injective : Function.Injective toNat := by
  intro a b h
  have hbytes := Words.value_injective (by simp [a.length, b.length]) h
  cases a
  cases b
  simpa using hbytes

lemma toNat_toDid (a : H160) : a.toDid.toNat = a.toNat := by
  rw [toDid, BitVec.toNat_ofNat, Nat.mod_eq_of_lt a.toNat_lt]

lemma toDid_injective : Function.Injective toDid := by
  intro a b h
  have := congrArg BitVec.toNat h
  rw [toNat_toDid, toNat_toDid] at this
  exact toNat_injective this

@[simp] lemma toNat_zero : (0 : H160).toNat = 0 := by
  change Words.value (List.replicate 20 (0 : BitVec 8)).reverse = 0
  rw [List.reverse_replicate, Words.value_replicate_zero]

/-! ### The sum -/

/-- A byte and its carry are the exact sum; a carry is at most one. -/
lemma addByte_spec (lhs rhs : BitVec 8) {carry : BitVec 16} (h : carry.toNat ≤ 1) :
    (addByte lhs rhs carry).1.toNat = (lhs.toNat + rhs.toNat + carry.toNat) % 2 ^ 8 ∧
      (addByte lhs rhs carry).2.toNat = (lhs.toNat + rhs.toNat + carry.toNat) / 2 ^ 8 := by
  have hl := lhs.isLt
  have hr := rhs.isLt
  have hsum : (lhs.setWidth 16 + rhs.setWidth 16 + carry).toNat =
      lhs.toNat + rhs.toNat + carry.toNat := by
    simp only [BitVec.toNat_add, BitVec.toNat_setWidth]
    omega
  refine ⟨?_, ?_⟩
  · rw [addByte, BitVec.toNat_setWidth, hsum]
  · rw [addByte, BitVec.toNat_ushiftRight, hsum, Nat.shiftRight_eq_div_pow]

lemma value_addLoop {l r : List (BitVec 8)} (hlength : l.length = r.length) {carry : BitVec 16}
    (h : carry.toNat ≤ 1) : Words.value (addLoop l r carry) =
      (Words.value l + Words.value r + carry.toNat) % (2 ^ 8) ^ l.length := by
  induction l generalizing r carry with
  | nil => simp [addLoop, Nat.mod_one]
  | cons x l ih =>
    obtain _ | ⟨y, r⟩ := r
    · cases hlength
    · obtain ⟨hlow, hcarry⟩ := addByte_spec x y h
      have hx := x.isLt
      have hy := y.isLt
      have hcarry' : (addByte x y carry).2.toNat ≤ 1 := by omega
      have hrest := ih (r := r) (by simpa using hlength) hcarry'
      have htotal : x.toNat + 2 ^ 8 * Words.value l + (y.toNat + 2 ^ 8 * Words.value r) +
          carry.toNat = x.toNat + y.toNat + carry.toNat +
            2 ^ 8 * (Words.value l + Words.value r) := by ring
      rw [addLoop, Words.value_cons, Words.value_cons, Words.value_cons, htotal,
        List.length_cons, pow_succ' (2 ^ 8) l.length, Nat.mod_mul, Nat.add_mul_mod_self_left,
        Nat.add_mul_div_left _ _ (by decide), hlow]
      rw [hrest, hcarry, Nat.add_comm (_ / _)]

lemma toNat_add (a b : H160) : (a + b).toNat = (a.toNat + b.toNat) % 2 ^ 160 := by
  have h := @value_addLoop a.bytes.reverse b.bytes.reverse
    (by simp [a.length, b.length]) 0 (by decide)
  rw [List.length_reverse, a.length, ← pow_mul] at h
  change Words.value (addLoop a.bytes.reverse b.bytes.reverse 0).reverse.reverse = _
  rw [List.reverse_reverse, h]
  rfl

lemma toDid_add (a b : H160) : (a + b).toDid = a.toDid + b.toDid := by
  refine BitVec.eq_of_toNat_eq ?_
  rw [BitVec.toNat_add, toNat_toDid, toNat_toDid, toNat_toDid, toNat_add]

/-! ### The negation -/

lemma carryLoop_eq (l : List (BitVec 8)) (carry : BitVec 16) :
    carryLoop l carry = addLoop l (List.replicate l.length 0) carry := by
  induction l generalizing carry with
  | nil => rfl
  | cons x l ih =>
    have hsum : x.setWidth 16 + (0 : BitVec 8).setWidth 16 + carry = x.setWidth 16 + carry := by
      simp
    rw [carryLoop, List.length_cons, List.replicate_succ, addLoop, addByte, hsum, ih]

lemma toNat_neg (a : H160) : (-a).toNat = (2 ^ 160 - a.toNat) % 2 ^ 160 := by
  have hlength : (a.bytes.map (~~~ ·)).reverse.length = 20 := by simp [a.length]
  have h := @value_addLoop (a.bytes.map (~~~ ·)).reverse
    (List.replicate (a.bytes.map (~~~ ·)).reverse.length 0) (by simp) 1 (by decide)
  have hnot := Words.value_map_not a.bytes.reverse
  rw [Words.value_replicate_zero, hlength, ← pow_mul, ← List.map_reverse] at h
  rw [List.length_reverse, a.length, ← pow_mul] at hnot
  change Words.value (carryLoop (a.bytes.map (~~~ ·)).reverse 1).reverse.reverse = _
  rw [List.reverse_reverse, carryLoop_eq, hlength, ← List.map_reverse, h, toNat]
  have hone : (1 : BitVec 16).toNat = 1 := rfl
  rw [hone]
  omega

lemma toNat_sub (a b : H160) : (a - b).toNat = (a.toNat + 2 ^ 160 - b.toNat) % 2 ^ 160 := by
  change (a + -b).toNat = _
  have hb := b.toNat_lt
  rw [toNat_add, toNat_neg, Nat.add_mod_mod, Nat.add_sub_assoc hb.le]

/-- Identifiers are an abelian group under `add_mod` and `additive_inverse`. -/
instance : AddCommGroup H160 where
  add_assoc a b c := toDid_injective (by simp only [toDid_add, BitVec.add_assoc])
  zero_add a := toNat_injective (by
    rw [toNat_add, toNat_zero, Nat.zero_add, Nat.mod_eq_of_lt a.toNat_lt])
  add_zero a := toNat_injective (by
    rw [toNat_add, toNat_zero, Nat.add_zero, Nat.mod_eq_of_lt a.toNat_lt])
  neg_add_cancel a := toNat_injective (by
    have ha := a.toNat_lt
    rw [toNat_add, toNat_neg, toNat_zero]
    omega)
  add_comm a b := toDid_injective (by rw [toDid_add, toDid_add, BitVec.add_comm])
  sub_eq_add_neg a b := rfl
  nsmul := nsmulRec
  zsmul := zsmulRec

/-! ### The bits -/

lemma reverse_modify {α : Type} (l : List α) (f : α → α) {j : ℕ} (hj : j < l.length) :
    (l.modify (l.length - 1 - j) f).reverse = l.reverse.modify j f := by
  refine List.ext_getElem (by simp) fun i h1 h2 => ?_
  simp only [List.getElem_reverse, List.getElem_modify, List.length_modify]
  simp only [List.length_reverse, List.length_modify] at h1
  by_cases hij : i = j
  · subst hij
    rw [if_pos rfl, if_pos rfl]
  · rw [if_neg (by omega), if_neg (Ne.symm hij)]

lemma toNat_setRingBit (a : H160) {bit : ℕ} (h : bit < 160) :
    (a.setRingBit bit).toNat = a.toNat ||| 2 ^ bit := by
  have hbyte : bit / 8 < 20 := by omega
  have hmodify := reverse_modify a.bytes (· ||| 1#8 <<< (bit % 8)) (j := bit / 8) (by
    rw [a.length]
    exact hbyte)
  rw [a.length] at hmodify
  rw [setRingBit, if_pos (by omega), toNat, toNat, hmodify]
  exact Words.value_modify_or (by decide) (by simpa [a.length] using hbyte)

lemma toNat_powerOfTwo (bit : ℕ) :
    (powerOfTwo bit).toNat = if bit < 160 then 2 ^ bit else 0 := by
  rw [powerOfTwo, ringBits]
  by_cases h : bit < 160
  · rw [if_neg (by omega), if_pos h, toNat_setRingBit _ h]
    change (0 : H160).toNat ||| _ = _
    rw [toNat_zero, Nat.zero_or]
  · rw [if_pos (by omega), if_neg h]
    exact toNat_zero

/-! ### The long division -/

section Division

variable (numerator : BitVec 32) (denominator : NonZeroU32)

lemma dyadicAfter_succ {steps : ℕ} (h : steps < 160) :
    dyadicAfter numerator denominator (steps + 1) =
      dyadicStep denominator.get.toNat (dyadicAfter numerator denominator steps)
        (159 - steps) := by
  have hget : (List.range ringBits).reverse[steps]? = some (159 - steps) := by
    rw [List.getElem?_reverse (by simpa [ringBits] using h), List.length_range, ringBits,
      List.getElem?_range (by omega)]
  rw [dyadicAfter, dyadicAfter, List.take_add_one, hget, List.foldl_append]
  rfl

/-- After `steps` bits the bytes hold the quotient so far and the remainder is what is left. -/
lemma dyadicAfter_spec {steps : ℕ} (h : steps ≤ 160) :
    (dyadicAfter numerator denominator steps).1 =
        2 ^ steps * (numerator.toNat % denominator.get.toNat) % denominator.get.toNat ∧
      (dyadicAfter numerator denominator steps).2.toNat = 2 ^ (160 - steps) *
        (2 ^ steps * (numerator.toNat % denominator.get.toNat) / denominator.get.toNat) := by
  have hpos := denominator.pos
  have hlt := denominator.get.isLt
  generalize hd : denominator.get.toNat = d at *
  have hstart : numerator.toNat % d < d := Nat.mod_lt _ hpos
  induction steps with
  | zero =>
    rw [dyadicAfter, hd, List.take_zero, List.foldl_nil, pow_zero, Nat.one_mul,
      Nat.mod_eq_of_lt hstart, Nat.div_eq_of_lt hstart, Nat.mul_zero]
    exact ⟨rfl, toNat_zero⟩
  | succ steps ih =>
    obtain ⟨hremainder, hquotient⟩ := ih (by omega)
    rw [dyadicAfter_succ _ _ (by omega), dyadicStep, hd, hremainder]
    have hdouble : 2 ^ (steps + 1) * (numerator.toNat % d) =
        2 * (2 ^ steps * (numerator.toNat % d)) := by ring
    rw [hdouble]
    generalize 2 ^ steps * (numerator.toNat % d) = x at *
    have hr := Nat.mod_lt x hpos
    have hx := Nat.div_add_mod x d
    have hwidth : 160 - steps = 159 - steps + 1 := by omega
    have hwrap : x % d * 2 % 2 ^ 64 = x % d * 2 := Nat.mod_eq_of_lt (by omega)
    rw [hwrap]
    by_cases hge : x % d * 2 ≥ d
    · -- the divisor fits once more: the bit is set, below all bits set so far
      have hproduct : d * (2 * (x / d) + 1) = 2 * (d * (x / d)) + d := by ring
      obtain ⟨hquot, hrem⟩ := (Nat.div_mod_unique hpos).2
        ⟨show x % d * 2 - d + d * (2 * (x / d) + 1) = 2 * x by omega, by omega⟩
      rw [if_pos hge, hquot, hrem]
      refine ⟨rfl, ?_⟩
      have hbit := Nat.two_pow_add_eq_or_of_lt
        (Nat.pow_lt_pow_right (by decide : 1 < 2) (Nat.lt_add_one (159 - steps))) (x / d)
      rw [toNat_setRingBit _ (by omega), hquotient, hwidth, ← hbit,
        show 160 - (steps + 1) = 159 - steps by omega]
      ring
    · have hproduct : d * (2 * (x / d)) = 2 * (d * (x / d)) := by ring
      obtain ⟨hquot, hrem⟩ := (Nat.div_mod_unique hpos).2
        ⟨show x % d * 2 + d * (2 * (x / d)) = 2 * x by omega, by omega⟩
      rw [if_neg hge, hquot, hrem, hquotient, hwidth,
        show 160 - (steps + 1) = 159 - steps by omega]
      exact ⟨rfl, by ring⟩

/-- The remainder stays below the denominator, before and after every bit. -/
lemma dyadicAfter_remainder_lt {steps : ℕ} (h : steps ≤ 160) :
    (dyadicAfter numerator denominator steps).1 < denominator.get.toNat := by
  rw [(dyadicAfter_spec numerator denominator h).1]
  exact Nat.mod_lt _ denominator.pos

lemma toNat_dyadicFraction (h : numerator.toNat < denominator.get.toNat) :
    (dyadicFraction numerator denominator).toNat =
      2 ^ 160 * numerator.toNat / denominator.get.toNat := by
  have hspec := (dyadicAfter_spec numerator denominator (le_refl 160)).2
  rw [Nat.mod_eq_of_lt h] at hspec
  simpa [dyadicFraction, ringBits] using hspec

end Division

/-! ### The placements -/

/-- The floors of the fractions of the circle are apart while the circle is long enough. -/
lemma fraction_strictMono {n i j : ℕ} (hn : 0 < n) (hle : n ≤ 2 ^ 160) (hij : i < j) :
    2 ^ 160 * i / n < 2 ^ 160 * j / n := by
  have hstep : 2 ^ 160 * i / n + 1 ≤ (2 ^ 160 * i + n) / n := by
    rw [Nat.add_div_right _ hn]
  have hmono : 2 ^ 160 * i + n ≤ 2 ^ 160 * j := by
    calc 2 ^ 160 * i + n ≤ 2 ^ 160 * (i + 1) := by omega
      _ ≤ 2 ^ 160 * j := Nat.mul_le_mul_left _ hij
  exact hstep.trans (Nat.div_le_div_right hmono)

/-- The offset of placement `i` of `n` is the fraction `i / n` of the circle. -/
lemma rotateAffine_eq (a : H160) {scalar : BitVec 16} (h : 0 < scalar.toNat) :
    ∃ offset : ℕ → H160,
      a.rotateAffine scalar = .ok ((List.range scalar.toNat).map fun i => a + offset i) ∧
      ∀ i < scalar.toNat, (offset i).toNat = 2 ^ 160 * i / scalar.toNat := by
  have hlt := scalar.isLt
  have hwidth : (scalar.setWidth 32).toNat = scalar.toNat := by
    rw [BitVec.toNat_setWidth]
    omega
  refine ⟨fun i => dyadicFraction (BitVec.ofNat 32 i) ⟨scalar.setWidth 32, hwidth ▸ h⟩, ?_,
    fun i hi => ?_⟩
  · rw [rotateAffine, NonZeroU32.new, dif_pos (hwidth ▸ h)]
  · have hi' : (BitVec.ofNat 32 i).toNat = i := by
      rw [BitVec.toNat_ofNat]
      omega
    rw [toNat_dyadicFraction _ _ (by simpa only [hi', hwidth] using hi)]
    simp only [hi', hwidth]

/-- The placements of an identifier are the `n` points `self + ⌊2^160 · i / n⌋` in order, and
no two are the same. -/
lemma rotateAffine_spec (a : H160) {scalar : BitVec 16} (h : 0 < scalar.toNat) :
    ∃ placements, a.rotateAffine scalar = .ok placements ∧
      placements.map toNat = (List.range scalar.toNat).map
        (fun i => (a.toNat + 2 ^ 160 * i / scalar.toNat) % 2 ^ 160) ∧ placements.Nodup := by
  obtain ⟨offset, hrotate, hoffset⟩ := a.rotateAffine_eq h
  have hlt := scalar.isLt
  refine ⟨_, hrotate, ?_, ?_⟩
  · rw [List.map_map]
    refine List.map_congr_left fun i hi => ?_
    rw [Function.comp_apply, toNat_add, hoffset i (List.mem_range.1 hi)]
  · refine List.Nodup.map_on (fun i hi j hj hij => ?_) List.nodup_range
    have hsame : 2 ^ 160 * i / scalar.toNat = 2 ^ 160 * j / scalar.toNat := by
      rw [← hoffset i (List.mem_range.1 hi), ← hoffset j (List.mem_range.1 hj),
        add_left_cancel hij]
    by_contra hne
    rcases Nat.lt_or_gt_of_ne hne with hlt' | hlt'
    · exact (fraction_strictMono h (by omega) hlt').ne hsame
    · exact (fraction_strictMono h (by omega) hlt').ne' hsame

/-- Ring arithmetic on the byte arrays is exact. -/
theorem ring_arithmetic_exact :
    (∀ a b : H160, (a.addMod b).toNat = (a.toNat + b.toNat) % 2 ^ 160) ∧
    (∀ a : H160, a.additiveInverse.toNat = (2 ^ 160 - a.toNat) % 2 ^ 160) ∧
    ((∀ a b c : H160, (a.addMod b).addMod c = a.addMod (b.addMod c)) ∧
      (∀ a b : H160, a.addMod b = b.addMod a) ∧ (∀ a : H160, zero.addMod a = a) ∧
      ∀ a : H160, a.additiveInverse.addMod a = zero) ∧
    (∀ a b : H160, (a - b).toNat = (a.toNat + 2 ^ 160 - b.toNat) % 2 ^ 160) ∧
    (∀ bit, (powerOfTwo bit).toNat = if bit < 160 then 2 ^ bit else 0) ∧
    (∀ (a : H160) (scalar : BitVec 16), 1 ≤ scalar.toNat →
      ∃ placements, a.rotateAffine scalar = .ok placements ∧
        placements.map toNat = (List.range scalar.toNat).map
          (fun i => (a.toNat + 2 ^ 160 * i / scalar.toNat) % 2 ^ 160) ∧ placements.Nodup) ∧
    ∀ (numerator : BitVec 32) (denominator : NonZeroU32) (steps : ℕ), steps ≤ 160 →
      (dyadicAfter numerator denominator steps).1 < denominator.get.toNat :=
  ⟨toNat_add, toNat_neg, ⟨add_assoc (G := H160), add_comm (G := H160), zero_add (M := H160),
    neg_add_cancel (G := H160)⟩, toNat_sub, toNat_powerOfTwo, fun a _ h => a.rotateAffine_spec h,
    fun numerator denominator _ h => dyadicAfter_remainder_lt numerator denominator h⟩

end H160

end Rings
