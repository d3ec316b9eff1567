import Rings.ChordFixpoint
import Rings.SortedKeys

/-!
The operators of the ring, computed one peer at a time.

A node never sees the set of peers: it admits them one by one into a successor list that is cut
to its capacity and into finger slots that keep one hint each. From an empty state the lists it
ends with are the operators' values on the set of all the peers it met, whatever their order.
-/

namespace Rings

lemma dist_injective (n : Did) : Function.Injective (dist n) := fun _ _ h => dist_inj.mp h

/-! ### The operators read a set -/

section Sets

variable {all members : List Did} {n : Did}

lemma clockwise_congr (h : ∀ x, x ∈ all ↔ x ∈ members) :
    clockwise all n = clockwise members n :=
  eq_of_keys clockwise_pairwise clockwise_pairwise fun x => by
    rw [mem_clockwise, mem_clockwise, h]

lemma successors_congr (h : ∀ x, x ∈ all ↔ x ∈ members) (k : ℕ) :
    successors all n k = successors members n k := by
  rw [successors_eq_take, successors_eq_take, clockwise_congr h]

lemma predecessor_congr (h : ∀ x, x ∈ all ↔ x ∈ members) :
    predecessor all n = predecessor members n :=
  argmax_congr (dist_injective n) fun x => by simp [h]

lemma finger_congr (h : ∀ x, x ∈ all ↔ x ∈ members) (i : ℕ) :
    finger all n i = finger members n i :=
  argmin_congr (dist_injective n) fun x => by simp [h]

end Sets

/-! ### One more peer -/

section Concat

variable {ps : List Did} {loc p : Did}

lemma clockwise_concat (hp : p ≠ loc) :
    clockwise (ps ++ [p]) loc = insertKey (dist loc) p (clockwise ps loc) := by
  refine eq_of_keys clockwise_pairwise
    (insertKey_pairwise (dist_injective loc) p clockwise_pairwise) fun x => ?_
  rw [mem_insertKey, mem_clockwise, mem_clockwise, List.mem_append, List.mem_singleton]
  constructor
  · rintro ⟨hx | rfl, hne⟩
    · exact Or.inr ⟨hx, hne⟩
    · exact Or.inl rfl
  · rintro (rfl | ⟨hx, hne⟩)
    · exact ⟨Or.inr rfl, hp⟩
    · exact ⟨Or.inl hx, hne⟩

lemma clockwise_local : clockwise (ps ++ [loc]) loc = clockwise ps loc := by
  simp [clockwise]

lemma updateSuccessors_eq {l : List Did} (hl : l.Pairwise (dist loc · < dist loc ·))
    (hloc : loc ∉ l) (hp : p ≠ loc) (k : ℕ) :
    updateSuccessors loc l p k = (insertKey (dist loc) p l).take k := by
  have hmem : ∀ x, x ∈ pushUnique l p ↔ x = p ∨ x ∈ l := by
    intro x
    unfold pushUnique
    split
    · rename_i h
      constructor
      · exact Or.inr
      · rintro (rfl | hx)
        · exact h
        · exact hx
    · simp [or_comm]
  change successors (pushUnique l p) loc k = _
  rw [successors_eq_take]
  congr 1
  refine eq_of_keys clockwise_pairwise (insertKey_pairwise (dist_injective loc) p hl) fun x => ?_
  rw [mem_insertKey, mem_clockwise, hmem]
  constructor
  · exact fun h => h.1
  · intro h
    refine ⟨h, ?_⟩
    rintro rfl
    rcases h with h | h
    · exact hp h.symm
    · exact hloc h

/-- **Successors.** The cut list after one more peer is the cut of the list of all peers. -/
lemma updateSuccessors_concat (hp : p ≠ loc) (k : ℕ) :
    updateSuccessors loc (successors ps loc k) p k = successors (ps ++ [p]) loc k := by
  rw [successors_eq_take, updateSuccessors_eq (clockwise_pairwise.sublist (List.take_sublist _ _))
    (fun h => (mem_clockwise.mp (List.mem_of_mem_take h)).2 rfl) hp, take_insertKey,
    successors_eq_take, clockwise_concat hp]

/-- **Fingers.** A slot takes the new peer exactly when the operator does. -/
lemma joinSlot_concat {i : ℕ} (hi : i < 160) :
    joinSlot loc p i (finger ps loc i) = finger (ps ++ [p]) loc i := by
  unfold joinSlot finger
  rw [powerOfTwo_toNat hi, List.filter_append]
  split
  · rename_i h
    have hnot : ¬ (p ≠ loc ∧ dist loc p ≥ 2 ^ i) := by
      rintro ⟨hne, hge⟩
      rcases h with h | h
      · omega
      · exact hne h
    rw [List.filter_cons_of_neg (by simpa using hnot), List.filter_nil, List.append_nil]
  · rename_i h
    simp only [not_or, not_lt] at h
    rw [List.filter_cons_of_pos (by simpa using ⟨h.2, h.1⟩), List.filter_nil, List.argmin_concat]
    rcases List.argmin (dist loc) _ with _ | old
    · rfl
    · simp only []
      rcases lt_trichotomy (dist loc old) (dist loc p) with hlt | heq | hgt
      · rw [if_pos hlt, if_neg (by omega)]
      · rw [if_neg (by omega), if_neg (by omega), dist_injective loc heq]
      · rw [if_neg (by omega), if_pos hgt]

/-- **Predecessor.** A candidate replaces the predecessor exactly when it lies behind it. -/
lemma rectifyPredecessor_concat :
    rectifyPredecessor loc (predecessor ps loc) p = predecessor (ps ++ [p]) loc := by
  unfold rectifyPredecessor predecessor
  rw [List.filter_append]
  split
  · rename_i h
    rw [List.filter_cons_of_neg (by simpa using h), List.filter_nil, List.append_nil]
  · rename_i h
    rw [List.filter_cons_of_pos (by simpa using h), List.filter_nil, List.argmax_concat]
    rcases List.argmax (dist loc) _ with _ | cur
    · rfl
    · simp only []
      by_cases hle : dist loc p ≤ dist loc cur
      · rw [if_pos hle, if_neg (by omega)]
      · rw [if_neg hle, if_pos (by omega)]

end Concat

/-! ### Admitting a list of peers -/

def admission (arrival : Did × ℕ) : TopologyEvent := .admitPeer arrival.1 none arrival.2

/-- An empty topology with a finger table of `width` slots. -/
def emptyTopology (loc : Did) (width : ℕ) : TopologyState :=
  .new loc [] none (List.replicate width none)

/-- The lists of `s` are the operators' values on `ps`. -/
structure Admitted (ps : List Did) (k width : ℕ) (loc : Did) (s : TopologyState) : Prop where
  localDid : s.localDid = loc
  successors : s.successors = successors ps loc k
  fingers : s.fingers = (List.range width).map (finger ps loc)

lemma Admitted.empty (k width : ℕ) (loc : Did) :
    Admitted [] k width loc (emptyTopology loc width) where
  localDid := rfl
  successors := by simp [emptyTopology, TopologyState.new, successors_eq_take, clockwise]
  fingers := by
    have : finger [] loc = fun _ => none := rfl
    simp [emptyTopology, TopologyState.new, this]

lemma Admitted.step {ps : List Did} {k width : ℕ} {loc : Did} {s : TopologyState}
    (hw : width ≤ 160) (h : Admitted ps k width loc s) (p : Did) (t : ℕ) :
    Admitted (ps ++ [p]) k width loc (step s (admission (p, t)) k).state where
  localDid := by rw [step_localDid, h.localDid]
  successors := by
    rw [step_successors, stepEvent_successors]
    simp only [admission, h.localDid, h.successors]
    by_cases hp : p = loc
    · subst hp
      rw [if_pos rfl, successors_eq_take, successors_eq_take, clockwise_local]
    · rw [if_neg hp, updateSuccessors_concat hp]
  fingers := by
    rw [step_fingers, stepEvent_fingers]
    simp only [admission, h.localDid, h.fingers]
    -- for the local node itself no slot changes either
    have hjoin : fingerJoin loc ((List.range width).map (finger ps loc)) p =
        (List.range width).map (finger (ps ++ [p]) loc) := by
      apply List.ext_getElem?
      intro i
      rw [fingerJoin_getElem?, List.getElem?_map, List.getElem?_map, Option.map_map]
      rcases Nat.lt_or_ge i width with hi | hi
      · rw [List.getElem?_range hi]
        exact congrArg some (joinSlot_concat (by omega))
      · rw [List.getElem?_eq_none (by simpa using hi)]
        rfl
    by_cases hp : p = loc
    · subst hp
      rw [if_pos rfl, ← hjoin]
      apply List.ext_getElem?
      intro i
      have hid : joinSlot p p i = id := by
        funext old
        simp [joinSlot]
      rw [fingerJoin_getElem?, hid, Option.map_id, id]
    · rw [if_neg hp, ← hjoin, Option.elim_none, h.fingers]

lemma admitted_run {k width : ℕ} (hw : width ≤ 160) (loc : Did) (arrivals : List (Did × ℕ)) :
    Admitted (arrivals.map (·.1)) k width loc
      (run k (emptyTopology loc width) (arrivals.map admission)) := by
  induction arrivals using List.reverseRecOn with
  | nil => exact Admitted.empty k width loc
  | append_singleton arrivals a ih =>
    rw [List.map_append, List.map_append, run_append]
    exact ih.step hw a.1 a.2

lemma predecessor_run {k : ℕ} (loc : Did) (width : ℕ) (ps : List Did) :
    let s := run k (emptyTopology loc width) (ps.map .notify)
    s.localDid = loc ∧ s.predecessor = predecessor ps loc := by
  induction ps using List.reverseRecOn with
  | nil => exact ⟨rfl, rfl⟩
  | append_singleton ps p ih =>
    rw [List.map_append, run_append]
    refine ⟨(step_localDid ..).trans ih.1, ?_⟩
    simp only [List.map_cons, List.map_nil, run_cons, run_nil]
    rw [step_predecessor, stepEvent_predecessor]
    simp only [ih.1, ih.2]
    exact rectifyPredecessor_concat

/-- **The incremental updates compute the operators.** Any list of admissions whose peers are the
members, in any order and with repetitions, ends with the successor list and the finger table of
the set; any list of notifications ends with its predecessor. -/
theorem updates_compute_operators (loc : Did) (k width : ℕ) (hw : width ≤ 160)
    (members : List Did) :
    (∀ arrivals : List (Did × ℕ), (∀ x, x ∈ arrivals.map (·.1) ↔ x ∈ members) →
      let s := run k (emptyTopology loc width) (arrivals.map admission)
      s.successors = successors members loc k ∧
        ∀ i < width, s.fingers[i]? = some (finger members loc i)) ∧
    ∀ candidates : List Did, (∀ x, x ∈ candidates ↔ x ∈ members) →
      (run k (emptyTopology loc width) (candidates.map .notify)).predecessor =
        predecessor members loc := by
  refine ⟨fun arrivals h => ?_, fun candidates h => ?_⟩
  · have hrun := admitted_run (k := k) hw loc arrivals
    refine ⟨?_, fun i hi => ?_⟩
    · rw [hrun.successors, successors_congr h]
    · rw [hrun.fingers, List.getElem?_map, List.getElem?_range hi, Option.map_some,
        finger_congr h]
  · rw [(predecessor_run loc width candidates).2, predecessor_congr h]

/-- Three peers met out of order, one twice and the local node among them. -/
theorem updates_compute_operators_three :
    let s := run 2 (emptyTopology 0 4) ([(9, 0), (0, 1), (2, 1), (9, 3), (5, 3)].map admission)
    s.successors = successors [0, 2, 5, 9] 0 2 ∧
      ∀ i < 4, s.fingers[i]? = some (finger [0, 2, 5, 9] 0 i) :=
  (updates_compute_operators 0 2 4 (by decide) [0, 2, 5, 9]).1 _ fun x => by
    simp only [List.map_cons, List.map_nil, List.mem_cons, List.not_mem_nil]
    tauto

end Rings
