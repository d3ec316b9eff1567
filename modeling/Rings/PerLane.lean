import Mathlib.Algebra.Order.Group.Multiset
import Mathlib.Data.List.Nodup
import Mathlib.Logic.Function.Basic
import Mathlib.Tactic.Abel

/-!
Lists read off values held one for each index.

What all of them hold together changes, when one of the values changes, by what its list gained
or lost.
-/

namespace Rings.PerLane

variable {ι α β : Type*} [DecidableEq ι] {all : List ι} {i : ι}

lemma flatMap_update_of_notMem (h : i ∉ all) (g : α → List β) (q : ι → α) (x : α) :
    (all.flatMap fun j => g (Function.update q i x j)) = all.flatMap fun j => g (q j) := by
  refine List.flatMap_congr fun j hj => ?_
  rw [Function.update_of_ne]
  rintro rfl
  exact h hj

/-- Together the lists lose what the replaced one held and gain what it holds now. -/
lemma flatMap_update (hall : all.Nodup) (hi : i ∈ all) (g : α → List β) (q : ι → α) (x : α) :
    ((all.flatMap fun j => g (Function.update q i x j)) : Multiset β) + g (q i) =
      (all.flatMap fun j => g (q j)) + (g x : Multiset β) := by
  induction all with
  | nil => cases hi
  | cons j all ih =>
    rw [List.nodup_cons] at hall
    simp only [List.flatMap_cons, ← Multiset.coe_add]
    rcases List.mem_cons.1 hi with rfl | hi
    · rw [flatMap_update_of_notMem hall.1, Function.update_self]
      abel
    · have hne : j ≠ i := fun h => hall.1 (h ▸ hi)
      rw [Function.update_of_ne hne, add_assoc, ih hall.2 hi]
      abel

lemma flatMap_update_add (hall : all.Nodup) (hi : i ∈ all) {g : α → List β} {q : ι → α} {x : α}
    {y : Multiset β} (hx : (g x : Multiset β) = g (q i) + y) :
    ((all.flatMap fun j => g (Function.update q i x j)) : Multiset β) =
      (all.flatMap fun j => g (q j)) + y := by
  have hupdate := flatMap_update hall hi g q x
  rw [hx, ← add_assoc, add_right_comm] at hupdate
  exact add_right_cancel hupdate

lemma flatMap_update_sub (hall : all.Nodup) (hi : i ∈ all) {g : α → List β} {q : ι → α} {x : α}
    {y : Multiset β} (hx : (g (q i) : Multiset β) = g x + y) :
    ((all.flatMap fun j => g (Function.update q i x j)) : Multiset β) + y =
      (all.flatMap fun j => g (q j) : List β) := by
  have hupdate := flatMap_update hall hi g q x
  rw [hx, ← add_assoc, add_right_comm] at hupdate
  exact add_right_cancel hupdate

omit [DecidableEq ι] in
/-- Each list falls into two, and so do all of them together. -/
lemma flatMap_add {f g k : ι → List β} (h : ∀ i, (f i : Multiset β) = g i + k i) (all : List ι) :
    (all.flatMap f : Multiset β) = all.flatMap g + (all.flatMap k : List β) := by
  induction all with
  | nil => rfl
  | cons i all ih =>
    simp only [List.flatMap_cons, ← Multiset.coe_add]
    rw [h i, ih]
    abel

end Rings.PerLane
