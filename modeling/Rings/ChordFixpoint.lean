import Rings.TopologyShape

/-!
The converged view: a state that holds what the operators predict for a set of members.

The lemmas say what each operator answers in terms of clockwise distance, and nothing later
looks inside the sort or the folds again.
-/

namespace Rings

/-- `ChordFixpoint(s, M, k)`: the lists of `s` are the operators' values on `M`. The finger
clause ranges over the slots the state carries. -/
structure ChordFixpoint (members : List Did) (k : ℕ) (s : TopologyState) : Prop where
  successors : s.successors = successors members s.localDid k
  predecessor : s.predecessor = predecessor members s.localDid
  fingers : ∀ i hint, s.fingers[i]? = some hint → hint = finger members s.localDid i

/-- The converged view of `n` with a table of `width` slots. -/
def converged (members : List Did) (k width : ℕ) (n : Did) : TopologyState :=
  .new n (successors members n k) (predecessor members n)
    ((List.range width).map (finger members n))

lemma converged_fixpoint (members : List Did) (k width : ℕ) (n : Did) :
    ChordFixpoint members k (converged members k width n) where
  successors := rfl
  predecessor := rfl
  fingers := by
    intro i hint h
    simp only [converged, TopologyState.new, List.getElem?_map, Option.map_eq_some_iff] at h
    obtain ⟨j, hj, rfl⟩ := h
    obtain ⟨hi, rfl⟩ := List.getElem?_eq_some_iff.mp hj
    rw [List.getElem_range]
    rfl

/-! ### What the operators answer -/

section Operators

variable {members : List Did} {n : Did}

def clockwise (members : List Did) (n : Did) : List Did :=
  ((members.filter (· ≠ n)).insertionSort (dist n · ≤ dist n ·)).dedup

lemma successors_eq_take (k : ℕ) : successors members n k = (clockwise members n).take k :=
  sortedSuccessors_eq

lemma mem_clockwise {x : Did} : x ∈ clockwise members n ↔ x ∈ members ∧ x ≠ n := by
  simp [clockwise]

lemma clockwise_pairwise : (clockwise members n).Pairwise (dist n · < dist n ·) := by
  have h := @sortedSuccessors_pairwise members n (clockwise members n).length
  rwa [sortedSuccessors_eq, ← clockwise, List.take_length] at h

/-- The first of a strictly increasing list is the least. -/
lemma head_le_of_pairwise {l : List Did} {h x : Did} (hl : l.Pairwise (dist n · < dist n ·))
    (hh : l.head? = some h) (hx : x ∈ l) : dist n h ≤ dist n x := by
  cases l with
  | nil => cases hh
  | cons y l =>
    obtain rfl := Option.some.inj hh
    rcases List.mem_cons.mp hx with rfl | hx
    · exact le_refl _
    · exact (List.rel_of_pairwise_cons hl hx).le

lemma finger_eq_some {i : ℕ} {f : Did} (h : finger members n i = some f) :
    f ∈ members ∧ f ≠ n ∧ 2 ^ i ≤ dist n f ∧
      ∀ m ∈ members, 2 ^ i ≤ dist n m → dist n f ≤ dist n m := by
  have hm := List.mem_filter.mp (List.argmin_mem h)
  simp only [decide_eq_true_eq] at hm
  refine ⟨hm.1, hm.2.1, hm.2.2, fun m hm1 hm2 => ?_⟩
  have hpos : 0 < 2 ^ i := Nat.two_pow_pos i
  have hne : m ≠ n := fun he => by
    have := dist_pos (a := n) (b := m) |>.mp (by omega)
    exact this he.symm
  exact List.le_of_mem_argmin (List.mem_filter.mpr ⟨hm1, by simpa using ⟨hne, hm2⟩⟩) h

lemma finger_isSome {i : ℕ} {m : Did} (hm : m ∈ members) (h : 2 ^ i ≤ dist n m) :
    ∃ f, finger members n i = some f := by
  rcases hf : finger members n i with _ | f
  · have hpos : 0 < 2 ^ i := Nat.two_pow_pos i
    have hne : n ≠ m := dist_pos.mp (by omega)
    have hnil := List.argmin_eq_none.mp hf
    rw [List.filter_eq_nil_iff] at hnil
    exact absurd (hnil m hm) (by simpa using ⟨hne.symm, h⟩)
  · exact ⟨f, rfl⟩

end Operators

/-! ### The head of a converged view -/

section Head

variable {members : List Did} {k : ℕ} {s : TopologyState}

lemma ChordFixpoint.successors_remote (h : ChordFixpoint members k s) {x : Did}
    (hx : x ∈ s.successors) : x ∈ members ∧ x ≠ s.localDid := by
  rw [h.successors, successors_eq_take] at hx
  exact mem_clockwise.mp (List.mem_of_mem_take hx)

/-- No entry of a converged successor list is skipped. -/
lemma ChordFixpoint.successorHead_eq (h : ChordFixpoint members k s) :
    successorHead s = s.successors.head? := by
  unfold successorHead
  rcases hl : s.successors with _ | ⟨x, l⟩
  · rfl
  · have hx : x ≠ s.localDid := (h.successors_remote (by rw [hl]; simp)).2
    simp [hx]

/-- The converged head is the nearest other member. -/
lemma ChordFixpoint.head_spec (h : ChordFixpoint members k s) {head : Did}
    (hh : successorHead s = some head) : head ∈ members ∧ head ≠ s.localDid ∧
      ∀ m ∈ members, m ≠ s.localDid → dist s.localDid head ≤ dist s.localDid m := by
  rw [h.successorHead_eq] at hh
  refine ⟨(h.successors_remote (List.mem_of_mem_head? hh)).1,
    (h.successors_remote (List.mem_of_mem_head? hh)).2, fun m hm hne => ?_⟩
  rw [h.successors, successors_eq_take] at hh
  refine head_le_of_pairwise clockwise_pairwise ?_ (mem_clockwise.mpr ⟨hm, hne⟩)
  cases k with
  | zero => cases hh
  | succ k =>
    rcases hl : clockwise members s.localDid with _ | ⟨x, l⟩
    · rw [hl] at hh
      cases hh
    · rw [hl] at hh
      exact hh

lemma ChordFixpoint.alone (hk : 1 ≤ k) (h : ChordFixpoint members k s)
    (hh : successorHead s = none) : ∀ m ∈ members, m = s.localDid := by
  intro m hm
  by_contra hne
  rw [h.successorHead_eq, List.head?_eq_none_iff, h.successors, successors_eq_take,
    List.take_eq_nil_iff] at hh
  rcases hh with hh | hh
  · omega
  · have := mem_clockwise.mpr ⟨hm, hne⟩
    rw [hh] at this
    cases this

end Head

end Rings
