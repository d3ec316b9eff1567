import Mathlib.Algebra.BigOperators.Group.List.Basic
import Mathlib.Data.List.Chain
import Mathlib.Tactic.Linarith

/-!
Events spaced by their weight: each starts a slot after the one before it, and a slot is long
enough for its weight at a fixed rate.
-/

namespace Rings

/-- Each event, a start and a weight, comes at least a slot of its weight before the next. -/
def SlotSpaced (slot : ℕ → ℕ) (l : List (ℕ × ℕ)) : Prop := l.Pairwise fun a b => a.1 + slot a.2 ≤ b.1

namespace SlotSpaced

variable {slot : ℕ → ℕ} {l : List (ℕ × ℕ)}

lemma isChain (h : SlotSpaced slot l) : l.IsChain fun a b => a.1 + slot a.2 ≤ b.1 :=
  List.Pairwise.isChain h

lemma filter (h : SlotSpaced slot l) (p : ℕ × ℕ → Bool) : SlotSpaced slot (l.filter p) :=
  List.Pairwise.filter p h

/-- One more event, a slot after the last. -/
lemma snoc (h : SlotSpaced slot l) {e : ℕ × ℕ}
    (hlast : ∀ a, l.getLast? = some a → a.1 + slot a.2 ≤ e.1) : SlotSpaced slot (l ++ [e]) := by
  refine List.pairwise_append.2 ⟨h, List.pairwise_singleton _ _, fun a ha b hb => ?_⟩
  rw [List.mem_singleton.1 hb]
  rcases List.eq_nil_or_concat' l with rfl | ⟨init, last, rfl⟩
  · cases ha
  · have hend := hlast last List.getLast?_concat
    rcases List.mem_append.1 ha with ha | ha
    · have := (List.pairwise_append.1 h).2.2 a ha last (List.mem_singleton.2 rfl)
      omega
    · rw [List.mem_singleton.1 ha]
      exact hend

/-- Between `x` and `y` the events weigh no more than the rate allows, and the last of them. -/
lemma sum_mul_le {w r cap x y : ℕ} (hslot : ∀ u, u * w ≤ r * slot u) (h : SlotSpaced slot l)
    (hcap : ∀ e ∈ l, e.2 ≤ cap) (hin : ∀ e ∈ l, x ≤ e.1 ∧ e.1 ≤ y) :
    (l.map Prod.snd).sum * w ≤ r * (y - x) + cap * w := by
  induction l generalizing x with
  | nil => simp
  | cons a l ih =>
    obtain ⟨hnext, hrest⟩ := List.pairwise_cons.1 h
    have ha := hin a List.mem_cons_self
    rw [List.map_cons, List.sum_cons, Nat.add_mul]
    cases l with
    | nil =>
      have hone := Nat.mul_le_mul_right w (hcap a List.mem_cons_self)
      simp only [List.map_nil, List.sum_nil, Nat.zero_mul]
      omega
    | cons b l =>
      have hsum := ih hrest (fun e he => hcap e (List.mem_cons_of_mem _ he))
        (x := a.1 + slot a.2) fun e he => ⟨hnext e he, (hin e (List.mem_cons_of_mem _ he)).2⟩
      have hb := hnext b List.mem_cons_self
      have hby := (hin b (List.mem_cons_of_mem _ List.mem_cons_self)).2
      have hsplit : r * slot a.2 + r * (y - (a.1 + slot a.2)) ≤ r * (y - x) := by
        rw [← Nat.mul_add]
        exact Nat.mul_le_mul_left r (by omega)
      have hhead := hslot a.2
      omega

end SlotSpaced

end Rings
