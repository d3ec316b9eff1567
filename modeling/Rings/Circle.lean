import Mathlib.Data.BitVec
import Mathlib.Data.Nat.Log
import Mathlib.Order.Basic
import Mathlib.Tactic

/-!
Clockwise distance on the circle of `2 ^ w` identifiers.

A position is a word of `w` bits, and the distance from `a` to `b` is the number of steps
clockwise from `a` to `b`. Everything about arcs follows from one fact: going from `a` to
`c` by way of `b` takes either the direct distance or one turn more.
-/

namespace Rings

variable {w : ℕ} {a b c : BitVec w}

/-- The clockwise distance from `a` to `b`. -/
def dist (a b : BitVec w) : ℕ := (b - a).toNat

@[simp] lemma dist_self (a : BitVec w) : dist a a = 0 := by simp [dist]

lemma dist_lt (a b : BitVec w) : dist a b < 2 ^ w := (b - a).isLt

lemma dist_eq (a b : BitVec w) : dist a b = (2 ^ w - a.toNat + b.toNat) % 2 ^ w := by
  simp [dist, BitVec.toNat_sub]

/-- **The detour law**: the way through `b` is the direct way when `b` lies on it, and one
turn more otherwise. -/
lemma dist_detour (a b c : BitVec w) :
    (dist a b ≤ dist a c ∧ dist a b + dist b c = dist a c) ∨
      (dist a c < dist a b ∧ dist a b + dist b c = dist a c + 2 ^ w) := by
  have ha := a.isLt
  have hb := b.isLt
  have hc := c.isLt
  have e : ∀ x y : BitVec w,
      dist x y = if x.toNat ≤ y.toNat then y.toNat - x.toNat else 2 ^ w - x.toNat + y.toNat := by
    intro x y
    have hx := x.isLt
    have hy := y.isLt
    rw [dist_eq]
    split
    · rw [show 2 ^ w - x.toNat + y.toNat = y.toNat - x.toNat + 2 ^ w by omega,
        Nat.add_mod_right, Nat.mod_eq_of_lt (by omega)]
    · exact Nat.mod_eq_of_lt (by omega)
  rw [e a b, e b c, e a c]
  split_ifs <;> omega

lemma dist_eq_zero : dist a b = 0 ↔ a = b := by
  constructor
  · intro h
    have h0 : b - a = 0 := BitVec.eq_of_toNat_eq (by simpa [dist] using h)
    exact (BitVec.sub_eq_iff_eq_add.mp h0).symm ▸ by simp
  · rintro rfl
    exact dist_self a

lemma dist_pos : 0 < dist a b ↔ a ≠ b := by
  rw [Nat.pos_iff_ne_zero, Ne, dist_eq_zero]

/-- The distance from a fixed point tells positions apart. -/
lemma dist_inj : dist a b = dist a c ↔ b = c := by
  constructor
  · intro h
    rcases dist_detour a b c with ⟨-, h1⟩ | ⟨h1, -⟩
    · exact dist_eq_zero.mp (by omega)
    · omega
  · rintro rfl
    rfl

lemma dist_add_of_le (h : dist a b ≤ dist a c) : dist a b + dist b c = dist a c := by
  rcases dist_detour a b c with ⟨-, h1⟩ | ⟨h1, -⟩
  · exact h1
  · omega

lemma dist_add_comm (h : a ≠ b) : dist a b + dist b a = 2 ^ w := by
  have h0 := dist_pos.mpr h
  rcases dist_detour a b a with ⟨h1, -⟩ | ⟨-, h1⟩ <;> simp only [dist_self] at h1
  · omega
  · omega

/-- A step onto the arc `(a, c]` brings the target nearer. -/
lemma dist_lt_of_step (hne : b ≠ a) (h : dist a b ≤ dist a c) : dist b c < dist a c := by
  have h0 := dist_pos.mpr hne.symm
  have h1 := dist_add_of_le h
  omega

end Rings
