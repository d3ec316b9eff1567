import Rings.FingerBits

/-!
Finger tokens and verification bits over whole runs.

One attempt is owned at a time. Its token is issued by the turn that emits the lookup, and is
consumed only by an input that carries it. The hints a lookup may still write have stood since
that turn: every step that changes a hint versions its slot or retires the lookup.
-/

namespace Rings

def hintOf (loc successor : Did) : Option Did := if successor = loc then none else some successor

def acceptedProof (s : TopologyState) : TopologyEvent → Option FingerRangeProof
  | .applyFinger request successor nowMs =>
    (s.fingerConvergence.validatedProof s.localDid s.fingers.length request successor nowMs).toOption
  | .admitPeer peer (some request) nowMs =>
    if peer = s.localDid then none
    else
      (s.fingerConvergence.validatedProof s.localDid s.fingers.length request peer nowMs).toOption
  | _ => none

def localResolution (s : TopologyState) (nowMs : ℕ) (requestId : Uuid) :
    Option (FingerFixRequest × Did) :=
  (s.fingerConvergence.prepareLookup s.fingers (firstRemoteSlot s) nowMs requestId).2.bind
    fun request =>
      match findSuccessor s (s.localDid + powerOfTwo request.slotIndex) with
      | .localAnswer successor => some (request, successor)
      | .remote _ _ => none

def confirmedEnd (s : TopologyState) (reporter : Did) (topoSuccessors : List Did)
    (topoPredecessor : Option Did) (capacity : ℕ) : Option ℕ :=
  stabilizedSuccessorProofEnd s reporter
    (stabilizeSuccessors s.localDid s.successors topoSuccessors topoPredecessor capacity)
    topoPredecessor

/-! ### One step -/

section Step

variable {s : TopologyState} {k i : ℕ}

lemma applyFingerResult_bits {q : FingerFixRequest} {p : Did} {t : ℕ}
    (h : (applyFingerResult s q p t).fingerConvergence.evidence.bit i = true) :
    s.fingerConvergence.evidence.bit i = true ∧
        (applyFingerResult s q p t).fingers[i]? = s.fingers[i]? ∨
      ∃ proof, s.fingerConvergence.validatedProof s.localDid s.fingers.length q p t = .ok proof ∧
        s.fingerConvergence.evidence.writes proof i = true ∧
        (applyFingerResult s q p t).fingers[i]? = some (hintOf s.localDid proof.successor) := by
  rw [applyFingerResult] at h ⊢
  rcases FingerConvergenceState.applyResult_cases s.fingerConvergence s.fingers s.localDid p q t
    with ⟨-, hsame⟩ | ⟨-, hf, he, -⟩ | ⟨proof, hproof, hf, he, -⟩
  · rw [hsame] at h ⊢
    exact Or.inl ⟨h, rfl⟩
  · simp only [he, hf] at h ⊢
    exact Or.inl ⟨h, trivial⟩
  · simp only [he, hf] at h ⊢
    rcases (s.fingerConvergence.evidence.apply_spec s.fingers s.localDid proof).2 i h with
      hkept | ⟨hw, hhint⟩
    · exact Or.inl hkept
    · exact Or.inr ⟨proof, hproof, hw, hhint⟩

lemma applyFingerResult_idle {q : FingerFixRequest} {p : Did} {t : ℕ}
    (h : s.fingerConvergence.attempt.canConsume q p = true) :
    (applyFingerResult s q p t).fingerConvergence.attempt = .idle := by
  rcases FingerConvergenceState.applyResult_cases s.fingerConvergence s.fingers s.localDid p q t
    with ⟨hcan, -⟩ | ⟨-, -, -, ha⟩ | ⟨-, -, -, -, ha⟩
  · exact absurd (h.symm.trans hcan) (by simp)
  · exact ha
  · exact ha

lemma applyFingerResult_other {q : FingerFixRequest} {p : Did} {t : ℕ}
    (h : s.fingerConvergence.attempt.canConsume q p = false) : applyFingerResult s q p t = s := by
  rcases FingerConvergenceState.applyResult_cases s.fingerConvergence s.fingers s.localDid p q t
    with ⟨-, hsame⟩ | ⟨hcan, -⟩ | ⟨proof, hproof, -⟩
  · rw [applyFingerResult, hsame]
  · exact absurd (hcan.symm.trans h) (by simp)
  · have hcan := (FingerConvergenceState.validatedProof_lookup hproof).1
    exact absurd (hcan.symm.trans h) (by simp)

def preparedState (s : TopologyState) (nowMs : ℕ) (requestId : Uuid) : TopologyState :=
  { s with fingerConvergence :=
      (s.fingerConvergence.prepareLookup s.fingers (firstRemoteSlot s) nowMs requestId).1 }

/-- A turn does nothing, times the attempt out, answers its lookup itself or emits it. -/
lemma stepFixFinger_cases (s : TopologyState) (t : ℕ) (id : Uuid) :
    (stepFixFinger s t id).state.fingers = s.fingers ∧
        (stepFixFinger s t id).state.fingerConvergence.evidence = s.fingerConvergence.evidence ∧
        ((stepFixFinger s t id).state.fingerConvergence = s.fingerConvergence ∨
          s.fingerConvergence.attempt.isExpired t = true ∧
            (stepFixFinger s t id).state.fingerConvergence.attempt = .idle) ∨
      s.fingerConvergence.attempt = .idle ∧ ∃ q : FingerFixRequest, q.requestId = id ∧
        (preparedState s t id).fingerConvergence.evidence = s.fingerConvergence.evidence ∧
        (∃ expires, (preparedState s t id).fingerConvergence.attempt =
          .awaitingReport ⟨q, s.fingerConvergence.evidence.epoch, expires⟩) ∧
        ((∃ successor, localResolution s t id = some (q, successor) ∧
            (stepFixFinger s t id).state =
              applyFingerResult (preparedState s t id) q successor t) ∨
          ∃ next did, stepFixFinger s t id =
            ⟨preparedState s t id, [.findSuccessorForFix next did q]⟩) := by
  unfold stepFixFinger
  split
  · exact Or.inl ⟨rfl, rfl, Or.inl rfl⟩
  obtain ⟨he, ⟨hnone, hturn⟩ | ⟨hidle, q, hid, hsome, hawaiting⟩⟩ :=
    s.fingerConvergence.prepareLookup_cases s.fingers (firstRemoteSlot s) t id
  · left
    simp only [hnone]
    exact ⟨trivial, he, hturn⟩
  · right
    refine ⟨hidle, q, hid, he, hawaiting, ?_⟩
    simp only [hsome]
    have hsame : findSuccessor (preparedState s t id) (s.localDid + powerOfTwo q.slotIndex) =
        findSuccessor s (s.localDid + powerOfTwo q.slotIndex) := rfl
    rw [preparedState] at hsame ⊢
    rw [hsame]
    rcases hfind : findSuccessor s (s.localDid + powerOfTwo q.slotIndex) with successor | ⟨next, did⟩
    · left
      refine ⟨successor, ?_, rfl⟩
      rw [localResolution, hsome, Option.bind_some, hfind]
    · exact Or.inr ⟨next, did, rfl⟩

lemma stepRemove_cases (s : TopologyState) (peer : Did) (r : SuccessorRemoval) (k : ℕ) :
    (stepRemove s peer r k).state.fingers = removeFingerPeer s.fingers peer ∧
      ((stepRemove s peer r k).state.fingerConvergence =
          s.fingerConvergence.invalidateHintChanges s.fingers (removeFingerPeer s.fingers peer) ∨
        (stepRemove s peer r k).state.successors = [] ∧
          (stepRemove s peer r k).state.fingerConvergence =
            (s.fingerConvergence.invalidateHintChanges s.fingers
              (removeFingerPeer s.fingers peer)).invalidateAllEvidence) := by
  refine ⟨rfl, ?_⟩
  by_cases hempty : (stepRemove s peer r k).state.successors.isEmpty = true
  · exact Or.inr ⟨List.isEmpty_iff.1 hempty, if_pos hempty⟩
  · exact Or.inl (if_neg hempty)

lemma stepBegin_fingers (s : TopologyState) (id : Uuid) :
    (stepBegin s id).state.fingers = s.fingers ∧
      (stepBegin s id).state.fingerConvergence = s.fingerConvergence := by
  rw [stepBegin]
  split
  · exact ⟨rfl, rfl⟩
  · split <;> exact ⟨rfl, rfl⟩

/-- A report that owns the claim rewrites the hints, and confirms its prefix with the reporter. -/
lemma stepStabilize_cases (s : TopologyState) (r : Did) (id : Uuid) (ss : List Did)
    (p : Option Did) (k : ℕ) :
    (stepStabilize s r id ss p k).state = s ∨
      s.isProcessingStabilizationReport r id = true ∧
        (confirmedEnd s r ss p k = none ∧ (stepStabilize s r id ss p k).state.fingerConvergence =
            s.fingerConvergence.invalidateHintChanges s.fingers
              (stepStabilize s r id ss p k).state.fingers ∨
          ∃ stop, confirmedEnd s r ss p k = some stop ∧
            (stepStabilize s r id ss p k).state.fingerConvergence =
              (s.fingerConvergence.invalidateHintChanges s.fingers
                (stepStabilize s r id ss p k).state.fingers).confirmRange 0 stop ∧
            ∀ i ≤ stop, (stepStabilize s r id ss p k).state.fingers[i]? = some (some r)) := by
  rw [stepStabilize]
  split
  · exact Or.inl rfl
  rename_i hown
  rw [not_not] at hown
  refine Or.inr ⟨hown, ?_⟩
  simp only [rehint]
  cases hend : confirmedEnd s r ss p k with
  | none =>
    rw [confirmedEnd] at hend
    simp only [hend]
    exact Or.inl ⟨trivial, trivial⟩
  | some stop =>
    rw [confirmedEnd] at hend
    simp only [hend]
    refine Or.inr ⟨stop, rfl, rfl, fun i hle => ?_⟩
    have hwidth : i < ((stabilizeSuccessors s.localDid s.successors ss p k).foldl
        (fingerJoin s.localDid) s.fingers).length := by
      rw [foldl_join_length]
      unfold stabilizedSuccessorProofEnd at hend
      split at hend
      · cases hend
      · exact hle.trans_lt (fingerProofEnd_spec hend).2.1
    rw [List.getElem?_mapIdx, List.getElem?_eq_getElem hwidth, Option.map_some,
      if_pos (Nat.lt_succ_of_le hle)]

/-- What set the bit of a slot in one step, with the hint it names. -/
inductive SetBy (k : ℕ) (s : TopologyState) (e : TopologyEvent) (i : ℕ) (hint : Option Did) : Prop
  | proof (p : FingerRangeProof) : acceptedProof s e = some p →
      s.fingerConvergence.evidence.writes p i = true → hint = hintOf s.localDid p.successor →
      SetBy k s e i hint
  | report (r : Did) (id : Uuid) (ss : List Did) (p : Option Did) (stop : ℕ) :
      e = .stabilize r id ss p → s.isProcessingStabilizationReport r id = true →
      confirmedEnd s r ss p k = some stop → i ≤ stop → hint = some r → SetBy k s e i hint
  | resolution (t : ℕ) (id : Uuid) (q : FingerFixRequest) (successor : Did) (stop : ℕ) :
      e = .advanceFingerConvergence t id → localResolution s t id = some (q, successor) →
      fingerProofEnd s.localDid successor q.slotIndex s.fingers.length = some stop →
      q.slotIndex ≤ i ∧ i ≤ stop → hint = hintOf s.localDid successor → SetBy k s e i hint


lemma acceptedProof_apply {q : FingerFixRequest} {p : Did} {t : ℕ} {proof : FingerRangeProof}
    (h : s.fingerConvergence.validatedProof s.localDid s.fingers.length q p t = .ok proof) :
    acceptedProof s (.applyFinger q p t) = some proof := by
  rw [acceptedProof, h]
  rfl

lemma stepFixFinger_bits {t : ℕ} {id : Uuid}
    (h : (stepFixFinger s t id).state.fingerConvergence.evidence.bit i = true) :
    s.fingerConvergence.evidence.bit i = true ∧
        (stepFixFinger s t id).state.fingers[i]? = s.fingers[i]? ∨
      ∃ q successor stop, localResolution s t id = some (q, successor) ∧
        fingerProofEnd s.localDid successor q.slotIndex s.fingers.length = some stop ∧
        (q.slotIndex ≤ i ∧ i ≤ stop) ∧
        (stepFixFinger s t id).state.fingers[i]? = some (hintOf s.localDid successor) := by
  rcases stepFixFinger_cases s t id with
    ⟨hf, he, -⟩ |
      ⟨-, q, -, he, ⟨expires, ha⟩, ⟨successor, hlocal, hstate⟩ | ⟨next, did, hstate⟩⟩
  · rw [he] at h
    exact Or.inl ⟨h, congrArg (·[i]?) hf⟩
  · rw [hstate] at h ⊢
    rcases applyFingerResult_bits h with ⟨hbit, hsame⟩ | ⟨proof, hproof, hw, hhint⟩
    · rw [he] at hbit
      exact Or.inl ⟨hbit, hsame⟩
    · obtain ⟨-, -, hrequest, hsucc⟩ := FingerConvergenceState.validatedProof_lookup hproof
      rw [hsucc] at hhint
      have hcovers := FingerEvidence.writes_covers hw
      rw [hrequest] at hcovers
      exact Or.inr ⟨q, successor, proof.endSlot, hlocal,
        FingerConvergenceState.validatedProof_endSlot ha hproof, hcovers, hhint⟩
  · rw [hstate] at h ⊢
    rw [he] at h
    exact Or.inl ⟨h, rfl⟩

lemma admit_bits (hb : s.fingerConvergence.evidence.Bounded) {peer : Did}
    {proof : Option FingerFixRequest} {t : ℕ}
    (h : (stepAdmit s peer proof t k).state.fingerConvergence.evidence.bit i = true) :
    s.fingerConvergence.evidence.bit i = true ∧
        (stepAdmit s peer proof t k).state.fingers[i]? = s.fingers[i]? ∨
      ∃ p, acceptedProof s (.admitPeer peer proof t) = some p ∧
        s.fingerConvergence.evidence.writes p i = true ∧
        (stepAdmit s peer proof t k).state.fingers[i]? =
          some (hintOf s.localDid p.successor) := by
  rw [stepAdmit] at h ⊢
  split at h
  · exact Or.inl ⟨h, by rw [if_pos ‹_›]⟩
  rename_i hpeer
  rw [if_neg hpeer]
  cases proof with
  | none =>
    obtain ⟨hbits, -, -⟩ := s.fingerConvergence.evidence.invalidateHintChanges_spec s.fingers
      (fingerJoin s.localDid s.fingers peer) hb
    exact Or.inl (hbits i h)
  | some q =>
    have hb' : (applyFingerResult s q peer t).fingerConvergence.evidence.Bounded :=
      (FingerConvergenceState.applyResult_carried hb).1
    obtain ⟨hbits, -, -⟩ :=
      (applyFingerResult s q peer t).fingerConvergence.evidence.invalidateHintChanges_spec
        (applyFingerResult s q peer t).fingers
        (fingerJoin s.localDid (applyFingerResult s q peer t).fingers peer) hb'
    obtain ⟨hbit, hsame⟩ := hbits i h
    rcases applyFingerResult_bits hbit with ⟨hkept, hf⟩ | ⟨p, hp, hw, hhint⟩
    · exact Or.inl ⟨hkept, hsame.trans hf⟩
    · refine Or.inr ⟨p, ?_, hw, hsame.trans hhint⟩
      rw [acceptedProof, if_neg hpeer, hp]
      rfl

lemma stabilize_bits (hb : s.fingerConvergence.evidence.Bounded) {r : Did} {id : Uuid}
    {ss : List Did} {p : Option Did}
    (h : (stepStabilize s r id ss p k).state.fingerConvergence.evidence.bit i = true) :
    s.fingerConvergence.evidence.bit i = true ∧
        (stepStabilize s r id ss p k).state.fingers[i]? = s.fingers[i]? ∨
      ∃ stop, s.isProcessingStabilizationReport r id = true ∧
        confirmedEnd s r ss p k = some stop ∧ i ≤ stop ∧
        (stepStabilize s r id ss p k).state.fingers[i]? = some (some r) := by
  rcases stepStabilize_cases s r id ss p k with hsame | ⟨hown, hrehint⟩
  · rw [hsame] at h ⊢
    exact Or.inl ⟨h, rfl⟩
  obtain ⟨hbits, -, -⟩ := s.fingerConvergence.evidence.invalidateHintChanges_spec s.fingers
    (stepStabilize s r id ss p k).state.fingers hb
  rcases hrehint with ⟨-, hc⟩ | ⟨stop, hend, hc, hhints⟩
  · rw [hc] at h
    exact Or.inl (hbits i h)
  · rw [hc] at h
    rcases (FingerEvidence.confirmRange_spec _ 0 stop).2 i h with hbit | ⟨-, hle, -⟩
    · exact Or.inl (hbits i hbit)
    · exact Or.inr ⟨stop, hown, hend, hle, hhints i hle⟩

lemma stepEvent_bits (hb : s.fingerConvergence.evidence.Bounded) (e : TopologyEvent)
    (h : (stepEvent s e k).state.fingerConvergence.evidence.bit i = true) :
    s.fingerConvergence.evidence.bit i = true ∧
        (stepEvent s e k).state.fingers[i]? = s.fingers[i]? ∨
      ∃ hint, (stepEvent s e k).state.fingers[i]? = some hint ∧ SetBy k s e i hint := by
  cases e with
  | admitPeer peer proof t =>
    rcases admit_bits hb h with hkept | ⟨p, hp, hw, hhint⟩
    · exact Or.inl hkept
    · exact Or.inr ⟨_, hhint, .proof p hp hw rfl⟩
  | remove peer r =>
    obtain ⟨hbits, -, hb'⟩ := s.fingerConvergence.evidence.invalidateHintChanges_spec s.fingers
      (removeFingerPeer s.fingers peer) hb
    simp only [stepEvent] at h ⊢
    obtain ⟨hf, hc | ⟨-, hc⟩⟩ := stepRemove_cases s peer r k
    · rw [hc] at h
      rw [hf]
      exact Or.inl (hbits i h)
    · rw [hc, (FingerConvergenceState.invalidateAllEvidence_bit _ i)] at h
      cases h
  | stabilize r id ss p =>
    rcases stabilize_bits hb h with hkept | ⟨stop, hown, hend, hle, hhint⟩
    · exact Or.inl hkept
    · exact Or.inr ⟨_, hhint, .report r id ss p stop rfl hown hend hle rfl⟩
  | beginFingerRevalidation =>
    exact Or.inl ⟨(FingerConvergenceState.beginRevalidation_carried hb _).2 i h, rfl⟩
  | advanceFingerConvergence t id =>
    rcases stepFixFinger_bits h with hkept | ⟨q, successor, stop, hlocal, hend, hin, hhint⟩
    · exact Or.inl hkept
    · exact Or.inr ⟨_, hhint, .resolution t id q successor stop rfl hlocal hend hin rfl⟩
  | applyFinger q p t =>
    rcases applyFingerResult_bits h with hkept | ⟨proof, hproof, hw, hhint⟩
    · exact Or.inl hkept
    · exact Or.inr ⟨_, hhint, .proof proof (acceptedProof_apply hproof) hw rfl⟩
  | deferFinger q p t =>
    simp only [stepEvent, deferFingerResult,
      (FingerConvergenceState.deferResult_carried (f := s.fingers) hb).2] at h ⊢
    exact Or.inl ⟨h, trivial⟩
  | cancelFinger q t =>
    simp only [stepEvent, cancelFingerResult,
      (FingerConvergenceState.cancel_carried (f := s.fingers) hb).2] at h ⊢
    exact Or.inl ⟨h, trivial⟩
  | beginStabilize id =>
    simp only [stepEvent, (stepBegin_fingers s id).1, (stepBegin_fingers s id).2] at h ⊢
    exact Or.inl ⟨h, trivial⟩
  | _ => exact Or.inl ⟨h, rfl⟩

/-- The event emits the lookup of `q` in a state that owns no attempt. -/
def Issues (k : ℕ) (s : TopologyState) (e : TopologyEvent) (q : FingerFixRequest) : Prop :=
  s.fingerConvergence.attempt = .idle ∧ ∃ t, e = .advanceFingerConvergence t q.requestId ∧
    ∃ next did, .findSuccessorForFix next did q ∈ (stepEvent s e k).actions

/-- A step retires the lookup in flight, or versions the slots whose hints it changes, or issues
a lookup. -/
lemma stepEvent_carried (hb : s.fingerConvergence.evidence.Bounded) (e : TopologyEvent) (k : ℕ) :
    Carried s.fingers s.fingerConvergence (stepEvent s e k).state.fingers
        (stepEvent s e k).state.fingerConvergence ∨
      ∃ q, Issues k s e q ∧ (stepEvent s e k).state.fingers = s.fingers ∧
        (stepEvent s e k).state.fingerConvergence.evidence = s.fingerConvergence.evidence ∧
        (stepEvent s e k).state.fingerConvergence.attempt.lookup =
          some (q, s.fingerConvergence.evidence.epoch) := by
  have hstay : Carried s.fingers s.fingerConvergence s.fingers s.fingerConvergence :=
    FingerConvergenceState.carried_same hb rfl (Or.inr rfl)
  cases e with
  | admitPeer peer proof t =>
    left
    simp only [stepEvent, stepAdmit]
    split
    · exact hstay
    · cases proof with
      | none => exact FingerConvergenceState.invalidateHintChanges_carried hb
      | some q =>
        have happly : Carried s.fingers s.fingerConvergence (applyFingerResult s q peer t).fingers
            (applyFingerResult s q peer t).fingerConvergence :=
          FingerConvergenceState.applyResult_carried hb
        exact happly.trans (FingerConvergenceState.invalidateHintChanges_carried happly.1)
  | remove peer r =>
    left
    have hrehint : Carried s.fingers s.fingerConvergence (removeFingerPeer s.fingers peer)
        (s.fingerConvergence.invalidateHintChanges s.fingers (removeFingerPeer s.fingers peer)) :=
      FingerConvergenceState.invalidateHintChanges_carried hb
    simp only [stepEvent]
    obtain ⟨hf, hc | ⟨-, hc⟩⟩ := stepRemove_cases s peer r k
    · rw [hf, hc]
      exact hrehint
    · rw [hf, hc]
      exact hrehint.trans (FingerConvergenceState.invalidateAllEvidence_carried hrehint.1)
  | stabilize r id ss p =>
    left
    simp only [stepEvent]
    have hrehint : Carried s.fingers s.fingerConvergence
        (stepStabilize s r id ss p k).state.fingers
        (s.fingerConvergence.invalidateHintChanges s.fingers
          (stepStabilize s r id ss p k).state.fingers) :=
      FingerConvergenceState.invalidateHintChanges_carried hb
    rcases stepStabilize_cases s r id ss p k with hsame | ⟨-, ⟨-, hc⟩ | ⟨stop, -, hc, -⟩⟩
    · rw [hsame]
      exact hstay
    · rw [hc]
      exact hrehint
    · rw [hc]
      exact hrehint.trans (FingerConvergenceState.confirmRange_carried hrehint.1 _ _)
  | beginFingerRevalidation =>
    exact Or.inl (FingerConvergenceState.beginRevalidation_carried hb _).1
  | advanceFingerConvergence t id =>
    simp only [stepEvent]
    rcases stepFixFinger_cases s t id with
      ⟨hf, he, ha⟩ |
        ⟨hidle, q, hid, he, ⟨expires, ha⟩, ⟨successor, -, hstate⟩ | ⟨next, did, hstate⟩⟩
    · left
      rw [hf]
      refine FingerConvergenceState.carried_same hb he ?_
      rcases ha with ha | ⟨-, ha⟩
      · exact Or.inr (by rw [ha])
      · exact Or.inl ha
    · -- a lookup answered from the local interval is over within its own turn
      left
      have hb' : (preparedState s t id).fingerConvergence.evidence.Bounded := he.symm ▸ hb
      have hcan : (preparedState s t id).fingerConvergence.attempt.canConsume q successor = true := by
        rw [ha]
        exact decide_eq_true rfl
      rw [hstate]
      refine ⟨(FingerConvergenceState.applyResult_carried hb').1, Or.inl ?_⟩
      exact congrArg FingerAttempt.lookup (applyFingerResult_idle hcan)
    · right
      refine ⟨q, ⟨hidle, t, by rw [hid], next, did, ?_⟩, ?_⟩
      · simp only [stepEvent, hstate, List.mem_singleton]
      · rw [hstate]
        exact ⟨rfl, he, congrArg FingerAttempt.lookup ha⟩
  | applyFinger q p t => exact Or.inl (FingerConvergenceState.applyResult_carried hb)
  | deferFinger q p t => exact Or.inl (FingerConvergenceState.deferResult_carried hb).1
  | cancelFinger q t => exact Or.inl (FingerConvergenceState.cancel_carried hb).1
  | beginStabilize id =>
    left
    rw [stepEvent, (stepBegin_fingers s id).1, (stepBegin_fingers s id).2]
    exact hstay
  | _ => exact Or.inl hstay

/-! ### The token -/

/-- The event carries the token of the attempt, and once a proof is retained its successor. -/
def ownsToken (s : TopologyState) : TopologyEvent → Bool
  | .admitPeer peer (some q) _ => s.fingerConvergence.attempt.canConsume q peer
  | .applyFinger q p _ => s.fingerConvergence.attempt.canConsume q p
  | .deferFinger q p _ => s.fingerConvergence.attempt.canConsume q p
  | .cancelFinger q _ => s.fingerConvergence.attempt.request = some q
  | _ => false

/-- The event without the token it carries; nothing is left of an event that is only its token. -/
def withoutToken : TopologyEvent → Option TopologyEvent
  | .admitPeer peer _ t => some (.admitPeer peer none t)
  | .applyFinger _ _ _ | .deferFinger _ _ _ | .cancelFinger _ _ => none
  | e => some e

inductive Retires (k : ℕ) (s : TopologyState) (e : TopologyEvent) (q : FingerFixRequest) : Prop
  | timeout (t : ℕ) (id : Uuid) : e = .advanceFingerConvergence t id →
      s.fingerConvergence.attempt.isExpired t = true → Retires k s e q
  | changed : (stepEvent s e k).state.fingers[q.slotIndex]? ≠ s.fingers[q.slotIndex]? →
      Retires k s e q
  | exhausted : checkedAdd u64Max s.fingerConvergence.evidence.epoch 1 = none → Retires k s e q
  | isolated (peer : Did) (r : SuccessorRemoval) : e = .remove peer r →
      (stepEvent s e k).state.successors = [] → Retires k s e q
  | confirmed (r : Did) (id : Uuid) (ss : List Did) (p : Option Did) (stop : ℕ) :
      e = .stabilize r id ss p → confirmedEnd s r ss p k = some stop → q.slotIndex ≤ stop →
      Retires k s e q

lemma deferFingerResult_other {q : FingerFixRequest} {p : Did} {t : ℕ}
    (h : s.fingerConvergence.attempt.canConsume q p = false) : deferFingerResult s q p t = s := by
  rw [deferFingerResult, FingerConvergenceState.deferResult]
  split
  · rename_i rejection _
    obtain ⟨-, ⟨-, hsame⟩ | ⟨hcan, -⟩⟩ := FingerConvergenceState.retireRejectedCurrent_spec
      s.fingerConvergence s.fingers p q t rejection
    · rw [hsame]
    · exact absurd (hcan.symm.trans h) (by simp)
  · rename_i proof hproof
    have hcan := (FingerConvergenceState.validatedProof_lookup hproof).1
    exact absurd (hcan.symm.trans h) (by simp)

lemma cancelFingerResult_other {q : FingerFixRequest} {t : ℕ}
    (h : s.fingerConvergence.attempt.request ≠ some q) : cancelFingerResult s q t = s := by
  rw [cancelFingerResult, FingerConvergenceState.cancel, FingerAttempt.clearIfOwned, if_neg h]
  simp

lemma stepEvent_other {e : TopologyEvent} (h : ownsToken s e = false) :
    (stepEvent s e k).state =
      (withoutToken e).elim s (fun e' => (stepEvent s e' k).state) := by
  cases e with
  | admitPeer peer proof t =>
    cases proof with
    | none => rfl
    | some q =>
      simp only [withoutToken, stepEvent, Option.elim_some, stepAdmit,
        applyFingerResult_other h, Option.elim_none]
  | applyFinger q p t => exact applyFingerResult_other h
  | deferFinger q p t => exact deferFingerResult_other h
  | cancelFinger q t => exact cancelFingerResult_other (of_decide_eq_false h)
  | _ => rfl

/-- An event that does not own the token leaves the attempt, or retires it unanswered. -/
lemma stepEvent_attempt {e : TopologyEvent} {q : FingerFixRequest}
    (hq : s.fingerConvergence.attempt.request = some q) (h : ownsToken s e = false) :
    (stepEvent s e k).state.fingerConvergence.attempt = s.fingerConvergence.attempt ∨
      (stepEvent s e k).state.fingerConvergence.attempt = .idle ∧ Retires k s e q := by
  -- a rewrite of the hints retires the attempt by its slot or by the epoch counter
  have hrehint : ∀ hints, (stepEvent s e k).state.fingers = hints →
      (s.fingerConvergence.invalidateHintChanges s.fingers hints).attempt =
          s.fingerConvergence.attempt ∨
        (s.fingerConvergence.invalidateHintChanges s.fingers hints).attempt = .idle ∧
          Retires k s e q := by
    rintro hints rfl
    rcases s.fingerConvergence.invalidateHintChanges_attempt s.fingers
      (stepEvent s e k).state.fingers with hsame | ⟨hidle, ⟨q', hq', hchanged⟩ | hexhausted⟩
    · exact Or.inl hsame
    · obtain rfl := Option.some.inj (hq.symm.trans hq')
      exact Or.inr ⟨hidle, .changed hchanged⟩
    · exact Or.inr ⟨hidle, .exhausted hexhausted⟩
  cases e with
  | admitPeer peer proof t =>
    rw [stepEvent_other h] at hrehint ⊢
    simp only [withoutToken, Option.elim_some, stepEvent, stepAdmit, rehint, Option.elim_none]
      at hrehint ⊢
    split
    · exact Or.inl rfl
    · rename_i hpeer
      exact hrehint _ (by rw [if_neg hpeer])
  | remove peer r =>
    obtain ⟨hf, hc | ⟨hlost, hc⟩⟩ := stepRemove_cases s peer r k
    · simp only [stepEvent, hc]
      exact hrehint _ hf
    · right
      simp only [stepEvent, hc]
      exact ⟨FingerConvergenceState.invalidateAllEvidence_attempt _, .isolated peer r rfl hlost⟩
  | stabilize r id ss p =>
    simp only [stepEvent]
    rcases stepStabilize_cases s r id ss p k with hsame | ⟨-, ⟨-, hc⟩ | ⟨stop, hend, hc, -⟩⟩
    · exact Or.inl (by rw [hsame])
    · rw [hc]
      exact hrehint _ rfl
    · rw [hc]
      simp only [FingerConvergenceState.confirmRange, FingerAttempt.clearIfSlotIn]
      split
      · rename_i hcovered
        rcases hrehint _ rfl with hsame | ⟨hidle, hretires⟩
        · rw [stepEvent] at hsame
          rw [hsame, hq, Option.any_some, decide_eq_true_eq] at hcovered
          exact Or.inr ⟨rfl, .confirmed r id ss p stop rfl hend hcovered.2⟩
        · exact Or.inr ⟨rfl, hretires⟩
      · exact hrehint _ rfl
  | advanceFingerConvergence t id =>
    simp only [stepEvent]
    rcases stepFixFinger_cases s t id with ⟨-, -, hsame | ⟨hexpired, hidle⟩⟩ | ⟨hidle, -⟩
    · exact Or.inl (by rw [hsame])
    · exact Or.inr ⟨hidle, .timeout t id rfl hexpired⟩
    · rw [hidle] at hq
      cases hq
  | beginFingerRevalidation =>
    left
    simp only [stepEvent, beginFingerRevalidation, FingerConvergenceState.beginRevalidation]
    split <;> rfl
  | beginStabilize id =>
    left
    rw [stepEvent, (stepBegin_fingers s id).2]
  | applyFinger q' p t =>
    left
    rw [stepEvent_other h]
    rfl
  | deferFinger q' p t =>
    left
    rw [stepEvent_other h]
    rfl
  | cancelFinger q' t =>
    left
    rw [stepEvent_other h]
    rfl
  | _ => exact Or.inl rfl

end Step

/-! ### Whole runs -/

section History

variable {k : ℕ} {s₀ : TopologyState} {es : List TopologyEvent}

/-- The event of index `m` issued the lookup of `q`. -/
def IssuedAt (k : ℕ) (s₀ : TopologyState) (es : List TopologyEvent) (m : ℕ)
    (q : FingerFixRequest) : Prop :=
  ∃ e, es[m]? = some e ∧ Issues k (stateAt k s₀ es m) e q

/-- The hint of slot `i` has not changed from index `m` to index `n`. -/
def StoodSince (k : ℕ) (s₀ : TopologyState) (es : List TopologyEvent) (i m n : ℕ) : Prop :=
  ∀ j, m ≤ j → j ≤ n → (stateAt k s₀ es j).fingers[i]? = (stateAt k s₀ es n).fingers[i]?

lemma StoodSince.succ {i m n : ℕ} (h : StoodSince k s₀ es i m n)
    (hstep : (stateAt k s₀ es (n + 1)).fingers[i]? = (stateAt k s₀ es n).fingers[i]?) :
    StoodSince k s₀ es i m (n + 1) := by
  intro j hm hj
  rcases Nat.eq_or_lt_of_le hj with rfl | hlt
  · rfl
  · rw [hstep]
    exact h j hm (Nat.le_of_lt_succ hlt)

/-- The lookup in flight was issued, and the slots it may still write have stood since. -/
structure Outstanding (k : ℕ) (s₀ : TopologyState) (es : List TopologyEvent) (n : ℕ)
    (q : FingerFixRequest) (epoch : ℕ) : Prop where
  issued : epoch ≤ (stateAt k s₀ es n).fingerConvergence.evidence.epoch
  since : ∃ m < n, IssuedAt k s₀ es m q ∧ ∀ (i : ℕ) (sl : FingerSlotEvidence),
    (stateAt k s₀ es n).fingerConvergence.evidence.slots[i]? = some sl → sl.changedAt ≤ epoch →
      StoodSince k s₀ es i m n

def EvidenceTracked (k : ℕ) (s₀ : TopologyState) (es : List TopologyEvent) (n : ℕ) : Prop :=
  (stateAt k s₀ es n).fingerConvergence.evidence.Bounded ∧
    ∀ q epoch, (stateAt k s₀ es n).fingerConvergence.attempt.lookup = some (q, epoch) →
      Outstanding k s₀ es n q epoch

lemma Outstanding.carry {n : ℕ} {q : FingerFixRequest} {epoch : ℕ}
    (h : Outstanding k s₀ es n q epoch)
    (hv : Versioned (stateAt k s₀ es n).fingers (stateAt k s₀ es n).fingerConvergence.evidence
      (stateAt k s₀ es (n + 1)).fingers
      (stateAt k s₀ es (n + 1)).fingerConvergence.evidence) :
    Outstanding k s₀ es (n + 1) q epoch := by
  obtain ⟨m, hm, hissued, hstood⟩ := h.since
  refine ⟨h.issued.trans hv.epoch, m, Nat.lt_succ_of_lt hm, hissued, fun i sl' hsl' hle => ?_⟩
  obtain ⟨sl, hsl, hmono, hchange⟩ := hv.slots i sl' hsl'
  refine (hstood i sl hsl (hmono.trans hle)).succ ?_
  -- a changed hint would carry an epoch later than the lookup's
  by_contra hne
  exact absurd (hchange hne) (Nat.not_lt.2 (hle.trans h.issued))

lemma evidenceTracked_succ {n : ℕ} (h : EvidenceTracked k s₀ es n) : EvidenceTracked k s₀ es (n + 1) := by
  obtain ⟨hb, hout⟩ := h
  rcases he : es[n]? with _ | e
  · have hsame : stateAt k s₀ es (n + 1) = stateAt k s₀ es n := stateAt_succ_of_none he
    refine ⟨hsame ▸ hb, fun q epoch hq => ?_⟩
    rw [hsame] at hq
    refine (hout q epoch hq).carry ?_
    rw [hsame]
    exact sameVersions_rfl.versioned _
  · have hf : (stateAt k s₀ es (n + 1)).fingers = (stepEvent (stateAt k s₀ es n) e k).state.fingers :=
      by rw [stateAt_succ he, step_fingers]
    have hc : (stateAt k s₀ es (n + 1)).fingerConvergence =
        (stepEvent (stateAt k s₀ es n) e k).state.fingerConvergence := by
      rw [stateAt_succ he, step_fingerConvergence]
    rcases stepEvent_carried hb e k with ⟨hb', hcarried⟩ | ⟨q, hissues, hf', he', hlookup⟩
    · refine ⟨hc ▸ hb', fun q epoch hq => ?_⟩
      rcases hcarried with hnone | ⟨hsame, hversions⟩
      · rw [hc, hnone] at hq
        cases hq
      · rw [hc, hsame] at hq
        refine (hout q epoch hq).carry ?_
        rw [hf, hc]
        exact hversions
    · refine ⟨?_, fun q' epoch hq => ?_⟩
      · rw [hc, he']
        exact hb
      · rw [hc, hlookup] at hq
        obtain ⟨rfl, rfl⟩ := Prod.mk.inj (Option.some.inj hq)
        refine ⟨by rw [hc, he'], n, Nat.lt_succ_self n, ⟨e, he, hissues⟩, fun i _ _ _ => ?_⟩
        have hrefl : StoodSince k s₀ es i n n := fun j h1 h2 => by rw [Nat.le_antisymm h2 h1]
        exact hrefl.succ (by rw [hf, hf'])

lemma evidenceTracked (loc : Did) (succs : List Did) (pred : Option Did) (fingers : Fingers) (n : ℕ) :
    EvidenceTracked k (.new loc succs pred fingers) es n := by
  induction n with
  | zero =>
    refine ⟨fun i sl hsl => ?_, fun q epoch hq => ?_⟩
    · have hmem := List.mem_of_getElem? hsl
      rw [List.eq_of_mem_replicate hmem]
      exact le_rfl
    · cases hq
  | succ n ih => exact evidenceTracked_succ ih

lemma toOption_eq_some {ε α : Type} {x : Except ε α} {a : α} (h : x.toOption = some a) :
    x = .ok a := by
  cases x with
  | error _ => cases h
  | ok b => exact congrArg Except.ok (Option.some.inj h)

/-- An accepted proof answers the lookup in flight, for an input that carries its token. -/
lemma acceptedProof_lookup {s : TopologyState} {e : TopologyEvent} {p : FingerRangeProof}
    (h : acceptedProof s e = some p) :
    ownsToken s e = true ∧ s.fingerConvergence.attempt.lookup = some (p.request, p.issuedEpoch) := by
  cases e with
  | applyFinger q d t =>
    obtain ⟨hcan, hlookup, hrequest, -⟩ :=
      FingerConvergenceState.validatedProof_lookup (toOption_eq_some h)
    exact ⟨hcan, hrequest ▸ hlookup⟩
  | admitPeer peer proof t =>
    cases proof with
    | none => cases h
    | some q =>
      rw [acceptedProof] at h
      split at h
      · cases h
      · obtain ⟨hcan, hlookup, hrequest, -⟩ :=
          FingerConvergenceState.validatedProof_lookup (toOption_eq_some h)
        exact ⟨hcan, hrequest ▸ hlookup⟩
  | _ => cases h

/-- Why slot `i` may be verified after the event `e` of index `n`. -/
inductive Supported (k : ℕ) (s₀ : TopologyState) (es : List TopologyEvent) (n : ℕ)
    (e : TopologyEvent) (i : ℕ) : Prop
  | kept : (stateAt k s₀ es n).fingerConvergence.evidence.bit i = true →
      (stateAt k s₀ es (n + 1)).fingers[i]? = (stateAt k s₀ es n).fingers[i]? →
      Supported k s₀ es n e i
  | proved (p : FingerRangeProof) (m : ℕ) : acceptedProof (stateAt k s₀ es n) e = some p →
      p.request.slotIndex ≤ i ∧ i ≤ p.endSlot →
      (stateAt k s₀ es (n + 1)).fingers[i]? = some (hintOf s₀.localDid p.successor) →
      m < n → IssuedAt k s₀ es m p.request → StoodSince k s₀ es i m n → Supported k s₀ es n e i
  | reported (r : Did) (id : Uuid) (ss : List Did) (p : Option Did) (stop : ℕ) :
      e = .stabilize r id ss p →
      (stateAt k s₀ es n).isProcessingStabilizationReport r id = true →
      confirmedEnd (stateAt k s₀ es n) r ss p k = some stop → i ≤ stop →
      (stateAt k s₀ es (n + 1)).fingers[i]? = some (some r) → Supported k s₀ es n e i
  | resolved (t : ℕ) (id : Uuid) (q : FingerFixRequest) (successor : Did) (stop : ℕ) :
      e = .advanceFingerConvergence t id →
      localResolution (stateAt k s₀ es n) t id = some (q, successor) →
      fingerProofEnd s₀.localDid successor q.slotIndex s₀.fingers.length = some stop →
      q.slotIndex ≤ i ∧ i ≤ stop →
      (stateAt k s₀ es (n + 1)).fingers[i]? = some (hintOf s₀.localDid successor) →
      Supported k s₀ es n e i

lemma stateAt_fixed (n : ℕ) : (stateAt k s₀ es n).localDid = s₀.localDid ∧
    (stateAt k s₀ es n).fingers.length = s₀.fingers.length := by
  induction n with
  | zero => exact ⟨rfl, rfl⟩
  | succ n ih =>
    rcases he : es[n]? with _ | e
    · rw [stateAt_succ_of_none he]
      exact ih
    · rw [stateAt_succ he, step_localDid, step_fingers, stepEvent_fingers_length]
      exact ih

lemma supported {n i : ℕ} {e : TopologyEvent} (ht : EvidenceTracked k s₀ es n) (he : es[n]? = some e)
    (h : (stateAt k s₀ es (n + 1)).fingerConvergence.evidence.bit i = true) :
    Supported k s₀ es n e i := by
  obtain ⟨hb, hout⟩ := ht
  obtain ⟨hloc, hlen⟩ : (stateAt k s₀ es n).localDid = s₀.localDid ∧
    (stateAt k s₀ es n).fingers.length = s₀.fingers.length := stateAt_fixed n
  have hf : (stateAt k s₀ es (n + 1)).fingers = (stepEvent (stateAt k s₀ es n) e k).state.fingers :=
    by rw [stateAt_succ he, step_fingers]
  rw [stateAt_succ he, step_fingerConvergence] at h
  rcases stepEvent_bits hb e h with ⟨hbit, hsame⟩ | ⟨hint, hhint, hset⟩
  · exact .kept hbit (hf ▸ hsame)
  · rw [← hf] at hhint
    cases hset with
    | proof p hp hw hname =>
      have hlookup := (acceptedProof_lookup hp).2
      obtain ⟨m, hm, hissued, hstood⟩ := (hout _ _ hlookup).since
      have hcovers := FingerEvidence.writes_covers hw
      -- the proof writes a slot that admits it: the hint is no newer than the lookup
      have hadmits : ∃ sl, (stateAt k s₀ es n).fingerConvergence.evidence.slots[i]? = some sl ∧
          sl.changedAt ≤ p.issuedEpoch := by
        rw [FingerEvidence.writes, Bool.and_eq_true] at hw
        rcases hsl : (stateAt k s₀ es n).fingerConvergence.evidence.slots[i]? with _ | sl
        · rw [hsl] at hw
          cases hw.2
        · rw [hsl] at hw
          exact ⟨sl, rfl, of_decide_eq_true hw.2⟩
      obtain ⟨sl, hsl, hle⟩ := hadmits
      rw [hname, hloc] at hhint
      exact .proved p m hp hcovers hhint hm hissued (hstood i sl hsl hle)
    | report r id ss p stop hev hown hend hle hname =>
      exact .reported r id ss p stop hev hown hend hle (hname ▸ hhint)
    | resolution t id q successor stop hev hlocal hend hin hname =>
      rw [hname, hloc] at hhint
      rw [hloc, hlen] at hend
      exact .resolved t id q successor stop hev hlocal hend hin hhint

/-- **Verification bits carry only current evidence.** Over every run from a fresh state, a slot
verified after an event was verified before with the same hint, or the event brought evidence
that names its hint and is no older than it. An attempt is issued only where none is owned, an
input carrying another token acts as the input without it, and an attempt that no input answers
is kept or retired unanswered. -/
theorem verified_bits_are_current (k : ℕ) (loc : Did) (succs : List Did) (pred : Option Did)
    (fingers : Fingers) (es : List TopologyEvent) (n : ℕ) (e : TopologyEvent)
    (he : es[n]? = some e) :
    let s₀ := TopologyState.new loc succs pred fingers
    let s := stateAt k s₀ es
    (∀ i, (s (n + 1)).fingerConvergence.evidence.bit i = true → Supported k s₀ es n e i) ∧
    (∀ q, (s n).fingerConvergence.attempt.request ≠ some q →
      (s (n + 1)).fingerConvergence.attempt.request = some q →
        Issues k (s n) e q) ∧
    (∀ p, acceptedProof (s n) e = some p → ownsToken (s n) e = true) ∧
    (ownsToken (s n) e = false →
      s (n + 1) = (withoutToken e).elim (s n) (fun e' => (step (s n) e' k).state) ∧
      ∀ q, (s n).fingerConvergence.attempt.request = some q →
        (s (n + 1)).fingerConvergence.attempt = (s n).fingerConvergence.attempt ∨
          (s (n + 1)).fingerConvergence.attempt = .idle ∧ Retires k (s n) e q) := by
  intro s₀ s
  have ht : EvidenceTracked k s₀ es n := evidenceTracked loc succs pred fingers n
  have hs : s (n + 1) = (step (s n) e k).state := stateAt_succ he
  have hc : (s (n + 1)).fingerConvergence = (stepEvent (s n) e k).state.fingerConvergence := by
    rw [hs, step_fingerConvergence]
  refine ⟨fun i h => supported ht he h, fun q hno hq => ?_,
    fun p hp => (acceptedProof_lookup hp).1, fun hother => ⟨?_, fun q hq => ?_⟩⟩
  · rw [hc] at hq
    rcases stepEvent_carried ht.1 e k with ⟨-, hnone | ⟨hsame, -⟩⟩ | ⟨q', hissues, -, -, hlookup⟩
    · rw [← FingerAttempt.lookup_map, hnone] at hq
      cases hq
    · rw [← FingerAttempt.lookup_map, hsame, FingerAttempt.lookup_map] at hq
      exact absurd hq hno
    · rw [← FingerAttempt.lookup_map, hlookup] at hq
      obtain rfl := Option.some.inj hq
      exact hissues
  · rw [hs, step_state, stepEvent_other hother]
    cases withoutToken e with
    | none => simp
    | some e' => exact (step_state (s n) e' k).symm
  · rw [hc]
    exact stepEvent_attempt hq hother

/-- An admission that carries another token still joins its peer: the hint of the pending slot
changes, and the attempt is retired. -/
theorem stale_admission_rewrites_hints :
    let s := run 3 (.new 0 [9] none (List.replicate 6 none)) [.advanceFingerConvergence 5000 7]
    let e := TopologyEvent.admitPeer 20 (some ⟨4, 8⟩) 6000
    s.fingerConvergence.attempt.request = some ⟨4, 7⟩ ∧ ownsToken s e = false ∧
      (step s e 3).state.fingers ≠ s.fingers ∧
      (step s e 3).state.fingerConvergence.attempt = .idle := by
  decide +kernel

/-- A lookup is issued, its report retained, and its proof applied with the admission. -/
theorem verified_bits_are_current_example :
    Supported 3 (.new 0 [9] none (List.replicate 6 none))
      [.advanceFingerConvergence 5000 7, .deferFinger ⟨4, 7⟩ 20 6000,
        .admitPeer 20 (some ⟨4, 7⟩) 7000] 2 (.admitPeer 20 (some ⟨4, 7⟩) 7000) 4 :=
  (verified_bits_are_current 3 0 [9] none (List.replicate 6 none)
    [.advanceFingerConvergence 5000 7, .deferFinger ⟨4, 7⟩ 20 6000,
      .admitPeer 20 (some ⟨4, 7⟩) 7000] 2 _ rfl).1 4 (by decide +kernel)

end History

end Rings
