import Rings.Topology

/-!
What one step does to each field of the topology, field by field. Later proofs read a field
of the next state off these equations and do not unfold the step again.
-/

namespace Rings

variable (s : TopologyState) (e : TopologyEvent) (k : ℕ)

/-- The head law touches the stabilization token only. -/
lemma step_state : (step s e k).state = { (stepEvent s e k).state with
    pendingStabilization :=
      if successorHead s ≠ successorHead (stepEvent s e k).state then none
      else (stepEvent s e k).state.pendingStabilization } := by
  unfold step
  dsimp only
  split <;> rfl

@[simp] lemma step_localDid_stepEvent :
    (step s e k).state.localDid = (stepEvent s e k).state.localDid := by rw [step_state]
@[simp] lemma step_successors :
    (step s e k).state.successors = (stepEvent s e k).state.successors := by rw [step_state]
@[simp] lemma step_predecessor :
    (step s e k).state.predecessor = (stepEvent s e k).state.predecessor := by rw [step_state]
@[simp] lemma step_fingers :
    (step s e k).state.fingers = (stepEvent s e k).state.fingers := by rw [step_state]
@[simp] lemma step_fingerConvergence :
    (step s e k).state.fingerConvergence = (stepEvent s e k).state.fingerConvergence := by
  rw [step_state]

/-! ### The fields a finger transition leaves alone -/

structure SameRing (s t : TopologyState) : Prop where
  localDid : s.localDid = t.localDid
  successors : s.successors = t.successors
  predecessor : s.predecessor = t.predecessor
  pending : s.pendingStabilization = t.pendingStabilization

lemma SameRing.rfl' : SameRing s s := ⟨rfl, rfl, rfl, rfl⟩

lemma stepFixFinger_sameRing (t : ℕ) (id : Uuid) : SameRing (stepFixFinger s t id).state s := by
  unfold stepFixFinger
  split
  · exact SameRing.rfl' s
  · dsimp only
    split
    · exact ⟨rfl, rfl, rfl, rfl⟩
    · split <;> exact ⟨rfl, rfl, rfl, rfl⟩

/-! ### Field by field -/

/-- No event but a removal and a notification touches the local node or its predecessor. -/
lemma stepEvent_localDid_predecessor :
    (stepEvent s e k).state.localDid = s.localDid ∧ (stepEvent s e k).state.predecessor =
      match e with
      | .remove peer _ => s.predecessor.filter (· ≠ peer)
      | .notify candidate => rectifyPredecessor s.localDid s.predecessor candidate
      | _ => s.predecessor := by
  cases e with
  | admitPeer peer proof t =>
    simp only [stepEvent, stepAdmit]
    split
    · exact ⟨rfl, rfl⟩
    · cases proof <;> exact ⟨rfl, rfl⟩
  | beginStabilize id =>
    simp only [stepEvent, stepBegin]
    split
    · exact ⟨rfl, rfl⟩
    · split <;> exact ⟨rfl, rfl⟩
  | stabilize r id ss p =>
    simp only [stepEvent, stepStabilize]
    split <;> exact ⟨rfl, rfl⟩
  | advanceFingerConvergence t id =>
    exact ⟨(stepFixFinger_sameRing s t id).localDid, (stepFixFinger_sameRing s t id).predecessor⟩
  | _ => exact ⟨rfl, rfl⟩

@[simp] lemma stepEvent_localDid : (stepEvent s e k).state.localDid = s.localDid :=
  (stepEvent_localDid_predecessor s e k).1

lemma stepEvent_predecessor : (stepEvent s e k).state.predecessor =
    match e with
    | .remove peer _ => s.predecessor.filter (· ≠ peer)
    | .notify candidate => rectifyPredecessor s.localDid s.predecessor candidate
    | _ => s.predecessor :=
  (stepEvent_localDid_predecessor s e k).2

lemma step_localDid : (step s e k).state.localDid = s.localDid := by simp

lemma stepEvent_successors : (stepEvent s e k).state.successors =
    match e with
    | .admitPeer peer _ _ =>
      if peer = s.localDid then s.successors
      else updateSuccessors s.localDid s.successors peer k
    | .remove peer (.replaceWith validated) =>
      if s.successors.head? = some peer then
        sortedSuccessors (validated.filter (· ≠ peer)) s.localDid k
      else s.successors.filter (· ≠ peer)
    | .remove peer .preserve => s.successors.filter (· ≠ peer)
    | .stabilize r id ss p =>
      if s.isProcessingStabilizationReport r id then
        stabilizeSuccessors s.localDid s.successors ss p k
      else s.successors
    | _ => s.successors := by
  cases e with
  | admitPeer peer proof t =>
    simp only [stepEvent, stepAdmit]
    split <;> rfl
  | remove peer r => cases r <;> rfl
  | beginStabilize id =>
    simp only [stepEvent, stepBegin]
    split
    · rfl
    · split <;> rfl
  | stabilize r id ss p =>
    by_cases h : s.isProcessingStabilizationReport r id = true <;>
      simp [stepEvent, stepStabilize, h]
  | advanceFingerConvergence t id => exact (stepFixFinger_sameRing s t id).successors
  | _ => rfl

lemma stepEvent_pending : (stepEvent s e k).state.pendingStabilization =
    match e with
    | .beginStabilize id =>
      match successorHead s with
      | none => none
      | some head =>
        if s.pendingStabilization.any (·.phase = .processing) then s.pendingStabilization
        else some ⟨head, id, .requested⟩
    | .claimStabilize r id =>
      if s.canClaimStabilizationReport r id then some ⟨r, id, .processing⟩
      else s.pendingStabilization
    | .stabilize r id _ _ =>
      if s.isProcessingStabilizationReport r id then none else s.pendingStabilization
    | .cancelStabilize id => s.pendingStabilization.filter (·.requestId ≠ id)
    | _ => s.pendingStabilization := by
  cases e with
  | admitPeer peer proof t =>
    simp only [stepEvent, stepAdmit]
    split
    · rfl
    · cases proof <;> rfl
  | beginStabilize id =>
    simp only [stepEvent, stepBegin]
    rcases successorHead s with _ | head
    · rfl
    · dsimp only
      split <;> rfl
  | stabilize r id ss p =>
    by_cases h : s.isProcessingStabilizationReport r id = true <;>
      simp [stepEvent, stepStabilize, h]
  | advanceFingerConvergence t id => exact (stepFixFinger_sameRing s t id).pending
  | _ => rfl

/-- The hints a stabilization report leaves: the joins of the next successors, and the proved
prefix pointing at the reporter. -/
def stabilizeHints (r : Did) (ss : List Did) (p : Option Did) : Fingers :=
  let next := stabilizeSuccessors s.localDid s.successors ss p k
  let joined := next.foldl (fingerJoin s.localDid) s.fingers
  match stabilizedSuccessorProofEnd s r next p with
  | some stop => joined.mapIdx fun i f => if i < stop + 1 then some r else f
  | none => joined

lemma stepEvent_fingers : (stepEvent s e k).state.fingers =
    match e with
    | .admitPeer peer proof t =>
      if peer = s.localDid then s.fingers
      else fingerJoin s.localDid (proof.elim s (applyFingerResult s · peer t)).fingers peer
    | .remove peer _ => removeFingerPeer s.fingers peer
    | .stabilize r id ss p =>
      if s.isProcessingStabilizationReport r id then stabilizeHints s k r ss p else s.fingers
    | .advanceFingerConvergence t id => (stepFixFinger s t id).state.fingers
    | .applyFinger r p t => (applyFingerResult s r p t).fingers
    | _ => s.fingers := by
  cases e with
  | admitPeer peer proof t =>
    simp only [stepEvent, stepAdmit]
    split <;> rfl
  | beginStabilize id =>
    simp only [stepEvent, stepBegin]
    split
    · rfl
    · split <;> rfl
  | stabilize r id ss p =>
    by_cases h : s.isProcessingStabilizationReport r id = true
    · simp only [stepEvent, stepStabilize, h, not_true_eq_false, if_false, rehint]
      rfl
    · simp [stepEvent, stepStabilize, h]
  | _ => rfl

end Rings
