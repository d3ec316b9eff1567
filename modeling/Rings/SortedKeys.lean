import Mathlib.Data.List.MinMax
import Mathlib.Data.List.Sort
import Mathlib.Tactic

/-!
Lists kept sorted by a key, one element at a time.

A list with strictly increasing keys is determined by its elements. Inserting an element where
its key belongs commutes with cutting the list to its first `k` elements, so a cut list that
grows by insertion is the cut of the list that was never cut.
-/

namespace Rings

variable {α β : Type*} [LinearOrder β] {f : α → β}

section Insert

variable [DecidableEq α] (f)

/-- Put `p` where its key belongs, unless it is there already. -/
def insertKey (p : α) : List α → List α
  | [] => [p]
  | x :: l =>
    if p = x then x :: l
    else if f p < f x then p :: x :: l
    else x :: insertKey p l

variable {f}

lemma mem_insertKey {p y : α} {l : List α} : y ∈ insertKey f p l ↔ y = p ∨ y ∈ l := by
  induction l with
  | nil => simp [insertKey]
  | cons x l ih =>
    unfold insertKey
    split
    · rename_i h
      simp [h]
    split
    · simp
    · simp only [List.mem_cons, ih]
      tauto

lemma insertKey_pairwise (hf : Function.Injective f) (p : α) {l : List α}
    (h : l.Pairwise (f · < f ·)) : (insertKey f p l).Pairwise (f · < f ·) := by
  induction l with
  | nil => simp [insertKey]
  | cons x l ih =>
    obtain ⟨hx, hl⟩ := List.pairwise_cons.mp h
    unfold insertKey
    split
    · exact h
    split
    · rename_i hlt
      refine List.pairwise_cons.mpr ⟨fun y hy => ?_, h⟩
      rcases List.mem_cons.mp hy with rfl | hy
      · exact hlt
      · exact lt_trans hlt (hx y hy)
    · rename_i hne hge
      have hxp : f x < f p := lt_of_le_of_ne (not_lt.mp hge) fun he => hne (hf he).symm
      refine List.pairwise_cons.mpr ⟨fun y hy => ?_, ih hl⟩
      rcases mem_insertKey.mp hy with rfl | hy
      · exact hxp
      · exact hx y hy

/-- **Insertion under a cut.** What the cut dropped would be dropped again. -/
lemma take_insertKey (p : α) (k : ℕ) (l : List α) :
    (insertKey f p (l.take k)).take k = (insertKey f p l).take k := by
  induction l generalizing k with
  | nil => simp
  | cons x l ih =>
    cases k with
    | zero => simp
    | succ k =>
      rw [List.take_succ_cons]
      unfold insertKey
      split
      · simp
      split
      · cases k with
        | zero => simp
        | succ k => simp [List.take_take]
      · rw [List.take_succ_cons, List.take_succ_cons, ih k]

end Insert

/-- A list with strictly increasing keys is determined by its elements. -/
lemma eq_of_keys {l m : List α} (hl : l.Pairwise (f · < f ·)) (hm : m.Pairwise (f · < f ·))
    (h : ∀ a, a ∈ l ↔ a ∈ m) : l = m := by
  have : Std.Irrefl (fun a b : α => f a < f b) := ⟨fun a => lt_irrefl (f a)⟩
  have : Std.Antisymm (fun a b : α => f a < f b) := ⟨fun _ _ h h' => absurd h' (not_lt.mpr h.le)⟩
  exact List.Pairwise.eq_of_mem_iff hl hm h

/-! ### The element of least and of greatest key -/

lemma argmin_congr (hf : Function.Injective f) {l m : List α} (h : ∀ a, a ∈ l ↔ a ∈ m) :
    l.argmin f = m.argmin f := by
  rcases hl : l.argmin f with _ | a
  · rw [List.argmin_eq_none] at hl
    subst hl
    rw [eq_comm, List.argmin_eq_none]
    exact List.eq_nil_iff_forall_not_mem.mpr fun a ha => by simpa using (h a).mpr ha
  rcases hm : m.argmin f with _ | b
  · rw [List.argmin_eq_none] at hm
    subst hm
    simpa using (h a).mp (List.argmin_mem hl)
  · have hab : f a ≤ f b := List.le_of_mem_argmin ((h b).mpr (List.argmin_mem hm)) hl
    have hba : f b ≤ f a := List.le_of_mem_argmin ((h a).mp (List.argmin_mem hl)) hm
    rw [hf (le_antisymm hab hba)]

lemma argmax_congr (hf : Function.Injective f) {l m : List α} (h : ∀ a, a ∈ l ↔ a ∈ m) :
    l.argmax f = m.argmax f := by
  have hd : Function.Injective (fun a => OrderDual.toDual (f a)) := fun a b he => hf he
  exact argmin_congr hd h

end Rings
