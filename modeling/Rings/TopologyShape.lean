import Rings.FingerHints
import Rings.TopologyFrame

/-!
The shape of the topology along every run.

The successor list is a strictly increasing chain of at most `k` remote peers, the
predecessor is remote, and slot `i` holds no peer nearer than `2^i`. What carries the finger
clause through a deferred proof is that a retained proof fits the geometry of the table: the
convergence state builds one only from a validated report.
-/

namespace Rings

/-- The lists of a state are well shaped for a successor capacity `k`. -/
structure Shape (k : ℕ) (s : TopologyState) : Prop where
  count : s.successors.length ≤ k
  remote : s.localDid ∉ s.successors
  sorted : s.successors.Pairwise (dist s.localDid · < dist s.localDid ·)
  pred : s.predecessor ≠ some s.localDid
  fingers : ∀ i p, s.fingers[i]? = some (some p) → 2 ^ i ≤ dist s.localDid p

/-- The states there are: a fresh one with any lists, what steps make of it, and snapshots the
shell restores with lists of its own. The convergence state has no constructor but the fresh
one, and the width of the table is fixed with it. -/
inductive Built : TopologyState → Prop
  | new (loc : Did) (succs : List Did) (pred : Option Did) (fingers : Fingers) :
      Built (.new loc succs pred fingers)
  | step {s : TopologyState} (e : TopologyEvent) (k : ℕ) : Built s → Built (step s e k).state
  | restore {s : TopologyState} (succs : List Did) (pred : Option Did) (fingers : Fingers)
      (pending : Option StabilizationRequest) : fingers.length = s.fingers.length → Built s →
      Built ⟨s.localDid, succs, pred, fingers, s.fingerConvergence, pending⟩

/-! ### Sorted successor lists -/

section Sorted

variable {l : List Did} {loc : Did} {k : ℕ}

instance (loc : Did) : Std.Total (fun a b : Did => dist loc a ≤ dist loc b) :=
  ⟨fun _ _ => le_total _ _⟩
instance (loc : Did) : IsTrans Did (fun a b : Did => dist loc a ≤ dist loc b) :=
  ⟨fun _ _ _ => le_trans⟩
instance (loc : Did) : Std.Antisymm (fun a b : Did => dist loc a ≤ dist loc b) :=
  ⟨fun _ _ h h' => dist_inj.mp (le_antisymm h h')⟩

lemma sortedSuccessors_length : (sortedSuccessors l loc k).length ≤ k := by
  simp [sortedSuccessors, List.length_take]

lemma mem_of_mem_sortedSuccessors {x : Did} (h : x ∈ sortedSuccessors l loc k) :
    x ∈ l ∧ x ≠ loc := by
  have h1 := (List.destutter_sublist _ _).subset (List.mem_of_mem_take h)
  simpa using h1

/-- On a sorted list, dropping neighbouring repetitions drops all of them. -/
lemma sortedSuccessors_eq : sortedSuccessors l loc k =
    (((l.filter (· ≠ loc)).insertionSort (dist loc · ≤ dist loc ·)).dedup).take k := by
  rw [sortedSuccessors, List.Pairwise.destutter_eq_dedup
    (List.pairwise_insertionSort (fun a b : Did => dist loc a ≤ dist loc b) _)]

lemma sortedSuccessors_pairwise :
    (sortedSuccessors l loc k).Pairwise (dist loc · < dist loc ·) := by
  rw [sortedSuccessors_eq]
  refine List.Pairwise.sublist (List.take_sublist _ _) ?_
  have hle := (List.pairwise_insertionSort (fun a b : Did => dist loc a ≤ dist loc b)
    (l.filter (· ≠ loc))).sublist (List.dedup_sublist _)
  have hne : List.Pairwise (· ≠ ·) _ := List.nodup_dedup
    ((l.filter (· ≠ loc)).insertionSort (dist loc · ≤ dist loc ·))
  exact (hle.and hne).imp fun h => lt_of_le_of_ne h.1 fun he => h.2 (dist_inj.mp he)

end Sorted

/-! ### The width of the table, and its retained proof -/

lemma applyResult_length (c : FingerConvergenceState) (loc : Did) (f : Fingers)
    (r : FingerFixRequest) (p : Did) (t : ℕ) : (c.applyResult loc f r p t).1.length = f.length := by
  unfold FingerConvergenceState.applyResult
  split
  · rfl
  · exact FingerEvidence.apply_fingers_length ..

lemma stepFixFinger_fingers (s : TopologyState) (t : ℕ) (id : Uuid) :
    (stepFixFinger s t id).state.fingers = s.fingers ∨
      ∃ c : FingerConvergenceState, ∃ (r : FingerFixRequest) (p : Did),
        (∀ n, s.fingerConvergence.attempt.Fits s.localDid n → c.attempt.Fits s.localDid n) ∧
        (stepFixFinger s t id).state.fingers = (c.applyResult s.localDid s.fingers r p t).1 := by
  unfold stepFixFinger
  split
  · exact Or.inl rfl
  dsimp only
  split
  · exact Or.inl rfl
  split
  · exact Or.inr ⟨_, _, _, fun _ h => prepareLookup_fits h _ _ _ _, rfl⟩
  · exact Or.inl rfl

lemma foldl_join_length (loc : Did) (ps : List Did) (f : Fingers) :
    (ps.foldl (fingerJoin loc) f).length = f.length := by
  induction ps generalizing f with
  | nil => rfl
  | cons p ps ih => rw [List.foldl_cons, ih, fingerJoin_length]

lemma stabilizeHints_length (s : TopologyState) (k : ℕ) (r : Did) (ss : List Did) (p : Option Did) :
    (stabilizeHints s k r ss p).length = s.fingers.length := by
  unfold stabilizeHints
  dsimp only
  split
  · rw [List.length_mapIdx, foldl_join_length]
  · rw [foldl_join_length]

lemma stepEvent_fingers_length (s : TopologyState) (e : TopologyEvent) (k : ℕ) :
    (stepEvent s e k).state.fingers.length = s.fingers.length := by
  rw [stepEvent_fingers]
  cases e with
  | admitPeer peer proof t =>
    dsimp only
    split
    · rfl
    · rw [fingerJoin_length]
      cases proof with
      | none => rfl
      | some r => exact applyResult_length ..
  | remove peer r => exact removeFingerPeer_length ..
  | stabilize r id ss p =>
    dsimp only
    split
    · exact stabilizeHints_length ..
    · rfl
  | advanceFingerConvergence t id =>
    dsimp only
    rcases stepFixFinger_fingers s t id with h | ⟨c, r, p, -, h⟩ <;> rw [h]
    exact applyResult_length ..
  | applyFinger r p t => exact applyResult_length ..
  | _ => rfl

/-- The finger attempt of a state fits its table. -/
def AttemptFits (s : TopologyState) : Prop :=
  s.fingerConvergence.attempt.Fits s.localDid s.fingers.length

lemma stepEvent_fits {s : TopologyState} (h : AttemptFits s) (e : TopologyEvent) (k : ℕ) :
    (stepEvent s e k).state.fingerConvergence.attempt.Fits s.localDid s.fingers.length := by
  cases e with
  | admitPeer peer proof t =>
    simp only [stepEvent, stepAdmit]
    split
    · exact h
    · refine invalidateHintChanges_fits ?_ _ _
      cases proof with
      | none => exact h
      | some r => exact applyResult_fits _ h _ _ _
  | remove peer r =>
    have h1 := invalidateHintChanges_fits h s.fingers (removeFingerPeer s.fingers peer)
    simp only [stepEvent, stepRemove, rehint]
    generalize List.isEmpty _ = empty
    cases empty
    · exact h1
    · exact invalidateAllEvidence_fits h1
  | beginStabilize id =>
    simp only [stepEvent, stepBegin]
    split
    · exact h
    · split <;> exact h
  | stabilize r id ss p =>
    simp only [stepEvent, stepStabilize, rehint]
    split
    · exact h
    · dsimp only
      split
      · exact confirmRange_fits (invalidateHintChanges_fits h _ _) _ _
      · exact invalidateHintChanges_fits h _ _
  | beginFingerRevalidation => exact beginRevalidation_fits h _ _
  | advanceFingerConvergence t id =>
    simp only [stepEvent, stepFixFinger]
    split
    · exact h
    split
    · exact prepareLookup_fits h _ _ _ _
    · split
      · exact applyResult_fits _ (prepareLookup_fits h _ _ _ _) _ _ _
      · exact prepareLookup_fits h _ _ _ _
  | applyFinger r p t => exact applyResult_fits _ h _ _ _
  | deferFinger r p t => exact deferResult_fits _ h _ _ _
  | cancelFinger r t => exact cancel_fits h _ _ _
  | _ => exact h

/-- **A built state retains only fitting proofs.** -/
theorem Built.fits {s : TopologyState} (h : Built s) : AttemptFits s := by
  induction h with
  | new loc succs pred fingers => exact FingerAttempt.fits_idle _ _
  | step e k _ ih =>
    unfold AttemptFits
    rw [step_fingerConvergence, step_localDid, step_fingers, stepEvent_fingers_length]
    exact stepEvent_fits ih e k
  | restore succs pred fingers pending hlen _ ih =>
    unfold AttemptFits
    rw [hlen]
    exact ih

/-! ### The step keeps the shape -/

lemma stepEvent_spaced {s : TopologyState} (hw : s.fingers.length ≤ 160) (hf : AttemptFits s)
    (h : Spaced s.localDid s.fingers) (e : TopologyEvent) (k : ℕ) :
    Spaced s.localDid (stepEvent s e k).state.fingers := by
  rw [stepEvent_fingers]
  cases e with
  | admitPeer peer proof t =>
    dsimp only
    split
    · exact h
    · cases proof with
      | none => exact h.join hw
      | some r =>
        have h1 := Spaced.applyResult hf h r peer t
        exact h1.1.join (h1.2.trans_le hw)
  | remove peer r => exact h.remove
  | stabilize r id ss p =>
    dsimp only
    split
    · unfold stabilizeHints
      dsimp only
      have hj := Spaced.foldl_join (stabilizeSuccessors s.localDid s.successors ss p k) hw h
      split
      · rename_i stop hstop
        intro i q hq
        rw [List.getElem?_mapIdx, Option.map_eq_some_iff] at hq
        obtain ⟨old, hold, hq⟩ := hq
        split at hq
        · -- the proved prefix points at the head, which is not the local node
          obtain rfl := Option.some.inj hq
          unfold stabilizedSuccessorProofEnd at hstop
          split at hstop
          · cases hstop
          · rename_i hc
            simp only [not_or, not_not] at hc
            have hne : r ≠ s.localDid := by
              have := List.find?_some hc.1
              simpa using this
            have := ((fingerProofEnd_spec hstop).2.2 hne).1
            exact le_trans (Nat.pow_le_pow_right (by omega) (by omega)) this
        · exact hj.1 i q (by rw [hold, hq])
      · exact hj.1
    · exact h
  | advanceFingerConvergence t id =>
    dsimp only
    rcases stepFixFinger_fingers s t id with he | ⟨c, r, p, hc, he⟩ <;> rw [he]
    · exact h
    · exact (Spaced.applyResult (hc _ hf) h r p t).1
  | applyFinger r p t => exact (Spaced.applyResult hf h r p t).1
  | _ => exact h

/-- The successor list is a strictly increasing chain of at most `k` remote peers. -/
structure Chained (k : ℕ) (loc : Did) (l : List Did) : Prop where
  count : l.length ≤ k
  remote : loc ∉ l
  sorted : l.Pairwise (dist loc · < dist loc ·)

lemma chained_sortedSuccessors (l : List Did) (loc : Did) (k : ℕ) :
    Chained k loc (sortedSuccessors l loc k) :=
  ⟨sortedSuccessors_length, fun h => (mem_of_mem_sortedSuccessors h).2 rfl,
    sortedSuccessors_pairwise⟩

lemma Chained.filter {k : ℕ} {loc : Did} {l : List Did} (h : Chained k loc l) (q : Did → Bool) :
    Chained k loc (l.filter q) :=
  ⟨le_trans (List.length_filter_le _ _) h.count, fun hm => h.remote (List.mem_of_mem_filter hm),
    h.sorted.filter q⟩

lemma stepEvent_chained {s : TopologyState} {k : ℕ} (h : Chained k s.localDid s.successors)
    (e : TopologyEvent) : Chained k s.localDid (stepEvent s e k).state.successors := by
  rw [stepEvent_successors]
  cases e with
  | admitPeer peer proof t =>
    dsimp only
    split
    · exact h
    · exact chained_sortedSuccessors ..
  | remove peer r =>
    cases r with
    | preserve => exact h.filter _
    | replaceWith v =>
      dsimp only
      split
      · exact chained_sortedSuccessors ..
      · exact h.filter _
  | stabilize r id ss p =>
    dsimp only
    split
    · exact chained_sortedSuccessors ..
    · exact h
  | _ => exact h

lemma rectifyPredecessor_ne {loc : Did} {cur : Option Did} (h : cur ≠ some loc) (c : Did) :
    rectifyPredecessor loc cur c ≠ some loc := by
  unfold rectifyPredecessor
  split
  · exact h
  · rename_i hc
    cases cur with
    | none => simpa using hc
    | some p =>
      dsimp only
      split
      · exact h
      · simpa using hc

lemma stepEvent_pred {s : TopologyState} (h : s.predecessor ≠ some s.localDid) (e : TopologyEvent)
    (k : ℕ) : (stepEvent s e k).state.predecessor ≠ some s.localDid := by
  rw [stepEvent_predecessor]
  cases e with
  | remove peer r =>
    intro hc
    exact h (Option.filter_eq_some_iff.mp hc).1
  | notify p => exact rectifyPredecessor_ne h p
  | _ => exact h

lemma Shape.step {k : ℕ} {s : TopologyState} (hw : s.fingers.length ≤ 160) (hf : AttemptFits s)
    (h : Shape k s) (e : TopologyEvent) : Shape k (step s e k).state := by
  have hc := stepEvent_chained ⟨h.count, h.remote, h.sorted⟩ e
  constructor
  · rw [step_successors]
    exact hc.count
  · rw [step_successors, step_localDid]
    exact hc.remote
  · rw [step_successors, step_localDid]
    exact hc.sorted
  · rw [step_predecessor, step_localDid]
    exact stepEvent_pred h.pred e k
  · rw [step_fingers, step_localDid]
    exact stepEvent_spaced hw hf h.fingers e k

/-- **Shape of the topology.** From a state with well-shaped lists, over every sequence of
events, the lists stay well shaped and the finger vector keeps its width. -/
theorem shape_run {k : ℕ} {s : TopologyState} (hb : Built s) (hw : s.fingers.length ≤ 160)
    (h : Shape k s) (es : List TopologyEvent) :
    Shape k (run k s es) ∧ (run k s es).localDid = s.localDid ∧
      (run k s es).fingers.length = s.fingers.length := by
  induction es generalizing s with
  | nil => exact ⟨h, rfl, rfl⟩
  | cons e es ih =>
    have hl : (step s e k).state.fingers.length = s.fingers.length := by
      rw [step_fingers, stepEvent_fingers_length]
    obtain ⟨h1, h2, h3⟩ := ih (.step e k hb) (by rw [hl]; exact hw) (h.step hw hb.fits e)
    exact ⟨h1, by rw [run_cons, h2, step_localDid], by rw [run_cons, h3, hl]⟩

lemma shape_empty (k : ℕ) (loc : Did) (width : ℕ) :
    Shape k (.new loc [] none (List.replicate width none)) where
  count := Nat.zero_le k
  remote := List.not_mem_nil
  sorted := List.Pairwise.nil
  pred := by simp [TopologyState.new]
  fingers := fun i p h => by simp [TopologyState.new, List.getElem?_replicate] at h

/-- A join, a stabilization round and a removal on a full-width empty table. -/
theorem shape_run_of_empty :
    Shape 3 (run 3 (.new 0 [] none (List.replicate 160 none))
      [.admitPeer 9 none 0, .notify 9, .beginStabilize 5, .claimStabilize 9 5,
        .stabilize 9 5 [0, 4] (some 4), .remove 9 .preserve]) :=
  (shape_run (.new 0 [] none _) (List.length_replicate ..).le (shape_empty 3 0 160) _).1

end Rings
