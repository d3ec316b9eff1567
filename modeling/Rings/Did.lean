import Rings.Circle

/-!
Distributed identities: positions on the ring `Z / 2^160`, and the fixed-width integers the
rest of the model counts with.
-/

namespace Rings

/-- A 20-byte identifier, read as one residue modulo `2^160`. -/
abbrev Did := BitVec 160

instance : LawfulBEq Did := inferInstance

/-- The correlation identifiers the effect boundary allocates: only equality is used. -/
abbrev Uuid := BitVec 128

instance neZero_word16 : NeZero (2 ^ 16) := ⟨by decide⟩

/-- Ring bit-width. -/
def ringBits : ℕ := 160

/-- `2^bit` in `Z / 2^160`, and zero past the width. -/
def powerOfTwo (bit : ℕ) : Did := if bit ≥ ringBits then 0 else BitVec.ofNat 160 (2 ^ bit)

lemma powerOfTwo_toNat {bit : ℕ} (h : bit < 160) : (powerOfTwo bit).toNat = 2 ^ bit := by
  rw [powerOfTwo, if_neg (by simp [ringBits]; omega), BitVec.toNat_ofNat]
  exact Nat.mod_eq_of_lt (Nat.pow_lt_pow_right (by omega) h)

lemma dist_add_powerOfTwo (a : Did) {bit : ℕ} (h : bit < 160) :
    dist a (a + powerOfTwo bit) = 2 ^ bit := by
  rw [dist, show a + powerOfTwo bit - a = powerOfTwo bit by simp [BitVec.add_comm a],
    powerOfTwo_toNat h]

def u8Max : ℕ := 2 ^ 8 - 1
def u32Max : ℕ := 2 ^ 32 - 1
def u64Max : ℕ := 2 ^ 64 - 1
def u128Max : ℕ := 2 ^ 128 - 1

/-- The greatest `usize`. -/
def usizeMax : ℕ := 2 ^ 64 - 1

/-- `a.saturating_add(b)` of an unsigned type whose greatest value is `top`. -/
def saturatingAdd (top a b : ℕ) : ℕ := min (a + b) top

/-- `a.checked_add(b)` of an unsigned type whose greatest value is `top`. -/
def checkedAdd (top a b : ℕ) : Option ℕ := if a + b ≤ top then some (a + b) else none

end Rings
