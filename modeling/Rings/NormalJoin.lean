import Mathlib.Order.Lattice

/-!
Joins that normalize.

A semilattice is joined as it stands and the result is normalized. When normalizing the sides
first makes no difference, normalization is idempotent, the normalizing join is a join on the
normal values, and a join of raw sides needs one normalization only.
-/

namespace Rings

structure NormalJoin (α : Type*) where
  sup : α → α → α
  norm : α → α
  comm : ∀ a b, sup a b = sup b a
  assoc : ∀ a b c, sup (sup a b) c = sup a (sup b c)
  self : ∀ a, sup a a = a
  sides : ∀ a b, norm (sup (norm a) (norm b)) = norm (sup a b)

namespace NormalJoin

variable {α : Type*} (J : NormalJoin α)

/-- A normal value: normalization leaves it. -/
def Normal (a : α) : Prop := J.norm a = a

def join (a b : α) : α := J.norm (J.sup a b)

lemma norm_norm (a : α) : J.norm (J.norm a) = J.norm a := by
  have h := J.sides a a
  rwa [J.self, J.self] at h

lemma normal_join (a b : α) : J.Normal (J.join a b) := J.norm_norm _

lemma join_norm (a b : α) : J.join (J.norm a) (J.norm b) = J.join a b := J.sides a b

lemma join_comm (a b : α) : J.join a b = J.join b a := by
  rw [join, join, J.comm]

variable {J} {a c : α}

lemma join_self (h : J.Normal a) : J.join a a = a := by
  rw [join, J.self, h]

/-- A normalized side stands for the raw one. -/
lemma join_join (b : α) (hc : J.Normal c) : J.join (J.join a b) c = J.norm (J.sup (J.sup a b) c) := by
  have h := J.sides (J.sup a b) c
  rwa [hc] at h

lemma join_assoc (ha : J.Normal a) (b : α) (hc : J.Normal c) :
    J.join (J.join a b) c = J.join a (J.join b c) := by
  rw [join_join b hc, J.join_comm a, join_join c ha, J.assoc, J.comm a]

end NormalJoin

end Rings
