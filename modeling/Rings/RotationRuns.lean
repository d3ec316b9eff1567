import Rings.FingerRotation

/-!
Runs of failing finger lookups.

From any state the convergence machine can be in, while the hints and the first routable slot
stand and every attempt fails: between two selections of a slot no other run of hints is passed
over, and the lookups keep their distance and the retry floor.
-/

namespace Rings

/-- The states the convergence machine can be in, for a table of `width` slots. -/
inductive Reached (width : ℕ) : FingerConvergenceState → Prop
  | new : Reached width (.new width)
  | invalidateHintChanges {c : FingerConvergenceState} (before after : Fingers) :
      Reached width c → Reached width (c.invalidateHintChanges before after)
  | invalidateAllEvidence {c : FingerConvergenceState} :
      Reached width c → Reached width c.invalidateAllEvidence
  | confirmRange {c : FingerConvergenceState} (start stop : ℕ) :
      Reached width c → Reached width (c.confirmRange start stop)
  | turn {c : FingerConvergenceState} (t : RotationTable) (e : ConvergenceEvent) :
      Reached width c → Reached width (t.turn c e)

lemma retireResult_evidence (c : FingerConvergenceState) (loc : Did) (f : Fingers)
    (q : FingerFixRequest) (x : Did) (now : ℕ) :
    (c.retireResult loc f q x now).evidence = c.evidence := by
  unfold FingerConvergenceState.retireResult
  split
  · exact retireRejectedCurrent_evidence ..
  · rfl

lemma Reached.evidence {width : ℕ} {c : FingerConvergenceState} (h : Reached width c) :
    c.evidence.Bounded ∧ c.evidence.slots.length = width := by
  induction h with
  | new =>
    refine ⟨fun i sl hsl => ?_, by simp [FingerConvergenceState.new]⟩
    have hmem := List.mem_of_getElem? hsl
    rw [List.eq_of_mem_replicate hmem]
    exact le_refl _
  | invalidateHintChanges before after _ ih =>
    exact ⟨(FingerConvergenceState.invalidateHintChanges_carried ih.1).1,
      (invalidateHintChanges_width ..).trans ih.2⟩
  | @invalidateAllEvidence c _ ih =>
    have hcarried : Carried [] c [] c.invalidateAllEvidence :=
      FingerConvergenceState.invalidateAllEvidence_carried ih.1
    exact ⟨hcarried.1, (invalidateAllEvidence_width c).trans ih.2⟩
  | @confirmRange c start stop _ ih =>
    exact ⟨(FingerConvergenceState.confirmRange_carried (f := []) ih.1 start stop).1,
      (FingerEvidence.confirmRange_slots_length ..).trans ih.2⟩
  | @turn c t e _ ih =>
    cases e with
    | beginRevalidation =>
      exact ⟨(FingerConvergenceState.beginRevalidation_carried ih.1 t.first).1.1,
        (beginRevalidation_width ..).trans ih.2⟩
    | prepareLookup now id =>
      simp only [RotationTable.turn, prepareLookup_evidence]
      exact ih
    | deferResult q x now =>
      simp only [RotationTable.turn, deferResult_evidence]
      exact ih
    | applyResult q x now =>
      exact ⟨(FingerConvergenceState.applyResult_carried (f := t.fingers) ih.1).1,
        (applyResult_width ..).trans ih.2⟩
    | retireResult q x now =>
      simp only [RotationTable.turn, retireResult_evidence]
      exact ih
    | cancel q now =>
      simp only [RotationTable.turn, cancel_evidence]
      exact ih

lemma Reached.foldl_turn {width : ℕ} {c : FingerConvergenceState} (h : Reached width c)
    (t : RotationTable) (es : List ConvergenceEvent) : Reached width (es.foldl t.turn c) := by
  induction es generalizing c with
  | nil => exact h
  | cons e es ih => exact ih (h.turn t e)

namespace RotationTable

variable (t : RotationTable)

def after (c : FingerConvergenceState) (es : ℕ → ConvergenceEvent) : ℕ → FingerConvergenceState
  | 0 => c
  | n + 1 => t.turn (after c es n) (es n)

def selects (c : FingerConvergenceState) (e : ConvergenceEvent) : Option ℕ :=
  (t.issued c e).map (·.slotIndex)

def issuedAt (c : FingerConvergenceState) (e : ConvergenceEvent) : Option ℕ :=
  match e with
  | .prepareLookup nowMs _ => (t.issued c e).map fun _ => nowMs
  | _ => none

lemma reached_after {t : RotationTable} {width : ℕ} {c : FingerConvergenceState}
    (h : Reached width c) (es : ℕ → ConvergenceEvent) (n : ℕ) : Reached width (t.after c es n) := by
  induction n with
  | zero => exact h
  | succ n ih => exact ih.turn t (es n)

end RotationTable

/-! ### No run is passed over -/

section Rotation

variable {t : RotationTable} {c : FingerConvergenceState} {es : ℕ → ConvergenceEvent} {i n : ℕ}

/-- The selections of a run strictly between two turns. -/
def ServedBetween (t : RotationTable) (c : FingerConvergenceState) (es : ℕ → ConvergenceEvent)
    (n m s : ℕ) : Prop :=
  ∃ k, n < k ∧ k < m ∧ t.selects (t.after c es k) (es k) = some s

/-- The reports retired strictly between two turns. -/
def RetiredBetween (t : RotationTable) (c : FingerConvergenceState) (es : ℕ → ConvergenceEvent)
    (n m : ℕ) (p : FingerRangeProof) : Prop :=
  ∃ k, n < k ∧ k < m ∧ t.retired (t.after c es k) (es k) = some p

lemma Walk.mono {served served' : ℕ → Prop} {proofs proofs' : FingerRangeProof → Prop}
    (h : Walk t i served proofs c) (hs : ∀ s, served s → served' s)
    (hp : ∀ p, proofs p → proofs' p) : Walk t i served' proofs' c where
  bounded := h.bounded
  width := h.width
  current := h.current
  cursor := h.cursor
  owner := fun q hq => (h.owner q hq).imp_right (hs _)
  reached := fun r h1 h2 h3 h4 => (h.reached r h1 h2 h3 h4).imp_left fun hc => hc.mono hs hp

lemma walk_begin (hreach : Reached t.fingers.length (t.after c es n))
    (hsel : t.selects (t.after c es n) (es n) = some i) :
    i < t.fingers.length ∧ Walk t i (ServedBetween t c es n (n + 1))
      (RetiredBetween t c es n (n + 1)) (t.after c es (n + 1)) := by
  obtain ⟨hb, hw⟩ := hreach.evidence
  obtain ⟨q, hq, rfl⟩ := Option.map_eq_some_iff.mp hsel
  change _ ∧ Walk t _ _ _ (t.turn (t.after c es n) (es n))
  cases he : es n with
  | prepareLookup now id =>
    rw [he] at hq
    have hq : ((t.after c es n).prepareLookup t.fingers t.first now id).2 = some q := hq
    have hlt := (prepareLookup_slot hq).2
    rw [hw] at hlt
    rcases (FingerConvergenceState.prepareLookup_cases t.fingers t.first now id).2 with
      ⟨hnone, -⟩ | ⟨-, q', -, hq', expires, ha⟩
    · rw [hnone] at hq
      cases hq
    obtain rfl := Option.some.inj (hq.symm.trans hq')
    have hev := prepareLookup_evidence (t.after c es n) t.fingers t.first now id
    refine ⟨hlt, ?_⟩
    simp only [RotationTable.turn]
    refine ⟨by rw [hev]; exact hb, by rw [hev]; exact hw, by rw [hev, ha]; exact ⟨rfl, hlt⟩,
      fun hidle => (by rw [ha] at hidle; cases hidle), fun q' hq' => ?_,
      fun r h1 h2 h3 h4 => Or.inr ?_⟩
    · rw [ha] at hq'
      exact Or.inl (by rw [← Option.some.inj hq'])
    · have hne : r ≠ q.slotIndex := by
        rintro rfl
        exact h4 (SameRun.refl _ _)
      rw [rotationPosition, ha]
      change Ahead q.slotIndex (q.slotIndex + 1) r
      unfold Ahead
      rw [if_neg (by omega)]
      omega
  | _ => rw [he] at hq; cases hq

lemma walk_run (hreach : Reached t.fingers.length c)
    (hfail : ∀ k, t.Fails (t.after c es k) (es k))
    (hsel : t.selects (t.after c es n) (es n) = some i) (d : ℕ)
    (hnot : ∀ k, n < k → k < n + 1 + d → t.selects (t.after c es k) (es k) ≠ some i) :
    Walk t i (ServedBetween t c es n (n + 1 + d)) (RetiredBetween t c es n (n + 1 + d))
      (t.after c es (n + 1 + d)) := by
  have hbegin := walk_begin (RotationTable.reached_after hreach es n) hsel
  induction d with
  | zero => exact hbegin.2
  | succ d ih =>
    have hwalk := ih fun k h1 h2 => hnot k h1 (by omega)
    have hturned := turn_turned hwalk.bounded hwalk.width hwalk.current (es (n + 1 + d))
      (hfail (n + 1 + d))
    have hstep := hwalk.step hbegin.1 hturned fun q hq hqi => by
      refine hnot (n + 1 + d) (by omega) (by omega) ?_
      unfold RotationTable.selects
      rw [hq, Option.map_some, hqi]
    refine hstep.mono ?_ ?_
    · rintro s (⟨k, h1, h2, h3⟩ | ⟨q, hq, rfl⟩)
      · exact ⟨k, h1, by omega, h3⟩
      · exact ⟨n + 1 + d, by omega, by omega, by
          unfold RotationTable.selects
          rw [hq, Option.map_some]⟩
    · rintro p (⟨k, h1, h2, h3⟩ | hp)
      · exact ⟨k, h1, by omega, h3⟩
      · exact ⟨n + 1 + d, by omega, by omega, hp⟩

/-- When slot `i` is selected again, every unverified routable slot outside its run was reached. -/
lemma covered_between {m : ℕ} (hreach : Reached t.fingers.length c)
    (hfail : ∀ k, t.Fails (t.after c es k) (es k)) (hnm : n < m)
    (hn : t.selects (t.after c es n) (es n) = some i)
    (hm : t.selects (t.after c es m) (es m) = some i)
    (hnot : ∀ k, n < k → k < m → t.selects (t.after c es k) (es k) ≠ some i) {r : ℕ}
    (hr : t.first ≤ r) (hlt : r < t.fingers.length)
    (hbit : (t.after c es m).evidence.bit r = false) (hrun : ¬ SameRun t.fingers i r) :
    Covered t.fingers i (ServedBetween t c es n m) (RetiredBetween t c es n m) r := by
  obtain ⟨d, rfl⟩ : ∃ d, m = n + 1 + d := ⟨m - (n + 1), by omega⟩
  have hwalk := walk_run hreach hfail hn d hnot
  refine (hwalk.reached r hr hlt hbit hrun).resolve_right fun hahead => ?_
  have hturned := turn_turned hwalk.bounded hwalk.width hwalk.current (es (n + 1 + d))
    (hfail (n + 1 + d))
  obtain ⟨q, hq, hqi⟩ := Option.map_eq_some_iff.mp hm
  rw [hq] at hturned
  generalize t.retired (t.after c es (n + 1 + d)) (es (n + 1 + d)) = ret at hturned
  generalize t.turn (t.after c es (n + 1 + d)) (es (n + 1 + d)) = c' at hturned
  cases hturned with
  | selected idle next evidence attempt cursor =>
    rw [rotationPosition, idle] at hahead
    rcases hahead.select next hr (by rw [hwalk.width]; exact hlt) hbit with rfl | ⟨-, hne⟩
    · rw [hqi] at hrun
      exact hrun (SameRun.refl _ _)
    · exact hne hqi

end Rotation

/-! ### The distance and the floor -/

section Pacing

variable {t : RotationTable} {c : FingerConvergenceState}

/-- An issued lookup keeps both bounds, records its instant and is no failure. -/
lemma issuedAt_spec {e : ConvergenceEvent} {now : ℕ} (h : t.issuedAt c e = some now) :
    c.retry.permitsIssue now = true ∧ (t.turn c e).retry = c.retry.recordIssue now ∧
      t.failure c e = none := by
  cases e with
  | prepareLookup nowMs id =>
    obtain ⟨q, hq, rfl⟩ := Option.map_eq_some_iff.mp h
    have hq : (c.prepareLookup t.fingers t.first nowMs id).2 = some q := hq
    simp only [RotationTable.turn, RotationTable.failure]
    unfold FingerConvergenceState.prepareLookup at hq ⊢
    split
    · rename_i hempty
      rw [if_pos hempty] at hq
      cases hq
    rename_i hfull
    rw [if_neg hfull] at hq
    split
    · rename_i hexpired
      rw [if_pos hexpired] at hq
      split at hq <;> cases hq
    rename_i hexpired
    rw [if_neg hexpired] at hq
    split
    · rename_i hbusy
      rw [if_pos hbusy] at hq
      cases hq
    rename_i hready
    rw [if_neg hready] at hq
    simp only [Bool.or_eq_true, Bool.not_eq_true', not_or, Bool.not_eq_false] at hready
    split
    · rename_i hnone
      rw [hnone] at hq
      cases hq
    · exact ⟨hready.2, rfl, by simp [hexpired]⟩
  | _ => cases h

lemma retireRejectedCurrent_retry (f : Fingers) (q : FingerFixRequest) (x : Did)
    (j : FingerReportRejection) (now : ℕ) :
    (c.retireRejectedCurrent f q x j now).retry =
      ((if c.attempt.canConsume q x && j.countsAsFailure then some now else none).elim c.retry
        c.retry.recordFailure) := by
  unfold FingerConvergenceState.retireRejectedCurrent
  by_cases hcan : c.attempt.canConsume q x = true
  · rw [if_neg (not_not.2 hcan), hcan, Bool.true_and]
    split <;> rfl
  · rw [if_pos hcan, if_neg (by simp [hcan])]
    rfl

lemma turn_retry {e : ConvergenceEvent} (hf : t.Fails c e) (hi : t.issuedAt c e = none) :
    (t.turn c e).retry = (t.failure c e).elim c.retry c.retry.recordFailure := by
  cases e with
  | beginRevalidation =>
    simp only [RotationTable.turn, RotationTable.failure,
      FingerConvergenceState.beginRevalidation]
    split <;> rfl
  | prepareLookup nowMs id =>
    have hi : (c.prepareLookup t.fingers t.first nowMs id).2 = none := Option.map_eq_none_iff.mp hi
    simp only [RotationTable.turn, RotationTable.failure]
    unfold FingerConvergenceState.prepareLookup at hi ⊢
    split
    · rename_i hempty
      simp [hempty]
    rename_i hfull
    rw [if_neg hfull] at hi
    split
    · rename_i hexpired
      have hfailure : (!t.fingers.isEmpty && c.attempt.isExpired nowMs) = true := by
        simp [hfull, hexpired]
      rw [if_pos hfailure]
      cases ha : c.attempt with
      | idle =>
        rw [ha] at hexpired
        cases hexpired
      | _ => rfl
    rename_i hexpired
    rw [if_neg hexpired] at hi
    have hfailure : ¬ (!t.fingers.isEmpty && c.attempt.isExpired nowMs) = true := by
      simp [hexpired]
    rw [if_neg hfailure]
    split
    · rfl
    rename_i hready
    rw [if_neg hready] at hi
    split
    · rfl
    · rename_i hq
      rw [hq] at hi
      cases hi
  | deferResult q x now =>
    simp only [RotationTable.turn, RotationTable.failure, FingerConvergenceState.deferResult]
    rcases c.validatedProof t.loc t.fingers.length q x now with j | p
    · exact retireRejectedCurrent_retry ..
    · dsimp only
      split <;> rfl
  | applyResult q x now =>
    simp only [RotationTable.turn, RotationTable.failure, FingerConvergenceState.applyResult]
    rcases hv : c.validatedProof t.loc t.fingers.length q x now with j | p
    · exact retireRejectedCurrent_retry ..
    · exact absurd hv (hf p)
  | retireResult q x now =>
    simp only [RotationTable.turn, RotationTable.failure, FingerConvergenceState.retireResult]
    rcases c.validatedProof t.loc t.fingers.length q x now with j | p
    · exact retireRejectedCurrent_retry ..
    · rfl
  | cancel q now =>
    simp only [RotationTable.turn, RotationTable.failure, FingerConvergenceState.cancel,
      FingerAttempt.clearIfOwned]
    by_cases h : c.attempt.request = some q
    · simp only [if_pos h]
      rfl
    · simp only [if_neg h]
      rfl

variable {es : ℕ → ConvergenceEvent} {n : ℕ}

lemma lastIssued_run (hfail : ∀ k, t.Fails (t.after c es k) (es k)) {a : ℕ}
    (hn : t.issuedAt (t.after c es n) (es n) = some a) (d : ℕ) :
    ∃ last, (t.after c es (n + 1 + d)).retry.lastIssuedAtMs = some last ∧ a ≤ last := by
  induction d with
  | zero => exact ⟨a, congrArg (·.lastIssuedAtMs) (issuedAt_spec hn).2.1, le_refl a⟩
  | succ d ih =>
    obtain ⟨last, hlast, hle⟩ := ih
    change ∃ last, (t.turn (t.after c es (n + 1 + d)) (es (n + 1 + d))).retry.lastIssuedAtMs =
      some last ∧ a ≤ last
    rcases hi : t.issuedAt (t.after c es (n + 1 + d)) (es (n + 1 + d)) with _ | b
    · rw [turn_retry (hfail _) hi]
      refine ⟨last, ?_, hle⟩
      cases t.failure (t.after c es (n + 1 + d)) (es (n + 1 + d)) <;> exact hlast
    · obtain ⟨hpermits, hretry, -⟩ := issuedAt_spec hi
      rw [hretry]
      refine ⟨b, rfl, ?_⟩
      simp only [FingerRetryState.permitsIssue, hlast, Option.all_some, Bool.and_eq_true,
        decide_eq_true_eq] at hpermits
      have hpos : 0 < fingerLookupMinIntervalMs := by decide
      omega

lemma retryFloor_run (hfail : ∀ k, t.Fails (t.after c es k) (es k)) {a : ℕ}
    (hn : t.failure (t.after c es n) (es n) = some a) (d : ℕ)
    (hnot : ∀ k, n < k → k < n + 1 + d → t.failure (t.after c es k) (es k) = none) :
    (t.after c es (n + 1 + d)).retry.retryNotBeforeMs = some (saturatingAdd u64Max a
      (fingerLookupBackoffMs (t.after c es (n + 1)).retry.failureStreak)) := by
  induction d with
  | zero =>
    have hi : t.issuedAt (t.after c es n) (es n) = none := by
      rcases hi : t.issuedAt (t.after c es n) (es n) with _ | b
      · rfl
      · rw [(issuedAt_spec hi).2.2] at hn
        cases hn
    have hretry : (t.after c es (n + 1)).retry =
        (t.after c es n).retry.recordFailure a := by
      change (t.turn (t.after c es n) (es n)).retry = _
      rw [turn_retry (hfail n) hi, hn]
      rfl
    rw [Nat.add_zero, hretry]
    rfl
  | succ d ih =>
    have hold := ih fun k h1 h2 => hnot k h1 (by omega)
    rw [← hold]
    change (t.turn (t.after c es (n + 1 + d)) (es (n + 1 + d))).retry.retryNotBeforeMs = _
    rcases hi : t.issuedAt (t.after c es (n + 1 + d)) (es (n + 1 + d)) with _ | b
    · rw [turn_retry (hfail _) hi, hnot (n + 1 + d) (by omega) (by omega)]
      rfl
    · rw [(issuedAt_spec hi).2.1]
      rfl

end Pacing

/-! ### The result -/

/-- Between two selections of slot `i` the maximal run of slot `r` was served: one of its slots
was selected, or one retired report proved all its unverified routable slots. -/
def RunServed (t : RotationTable) (c : FingerConvergenceState) (es : ℕ → ConvergenceEvent)
    (n m r : ℕ) : Prop :=
  (∃ s, ServedBetween t c es n m s ∧ SameRun t.fingers s r) ∨
    ∃ p, RetiredBetween t c es n m p ∧ ∀ r', SameRun t.fingers r r' → t.first ≤ r' →
      r' < t.fingers.length → (t.after c es m).evidence.bit r' = false → p.covers r' = true

/-- **The rotation of failing lookups.** From any reached state, while the hints and the first
routable slot stand and every attempt fails: between two consecutive selections of a slot every
other maximal run of equal hints with an unverified routable slot is served; issued lookups are
the minimum interval apart; and none is issued before the floor of the last failure. -/
theorem lookup_rotation (t : RotationTable) (c : FingerConvergenceState)
    (hreach : Reached t.fingers.length c) (es : ℕ → ConvergenceEvent)
    (hfail : ∀ k, t.Fails (t.after c es k) (es k)) :
    (∀ n m i, n < m → t.selects (t.after c es n) (es n) = some i →
      t.selects (t.after c es m) (es m) = some i →
      (∀ k, n < k → k < m → t.selects (t.after c es k) (es k) ≠ some i) →
      ∀ r, t.first ≤ r → r < t.fingers.length → (t.after c es m).evidence.bit r = false →
        ¬ SameRun t.fingers i r → RunServed t c es n m r) ∧
    (∀ n m a b, n < m → t.issuedAt (t.after c es n) (es n) = some a →
      t.issuedAt (t.after c es m) (es m) = some b → a + fingerLookupMinIntervalMs ≤ b) ∧
    ∀ n m a b, n < m → t.failure (t.after c es n) (es n) = some a →
      (∀ k, n < k → k < m → t.failure (t.after c es k) (es k) = none) →
      t.issuedAt (t.after c es m) (es m) = some b →
      saturatingAdd u64Max a
        (fingerLookupBackoffMs (t.after c es (n + 1)).retry.failureStreak) ≤ b := by
  refine ⟨?_, ?_, ?_⟩
  · intro n m i hnm hn hm hnot r hr hlt hbit hrun
    by_cases hserved : ∃ s, ServedBetween t c es n m s ∧ SameRun t.fingers s r
    · exact Or.inl hserved
    -- the report that proved the last unverified slot of the run began below the run
    obtain ⟨last, ⟨hl1, hl2, hl3, hl4⟩, hmax⟩ : ∃ x, (SameRun t.fingers r x ∧ t.first ≤ x ∧
        x < t.fingers.length ∧ (t.after c es m).evidence.bit x = false) ∧
        ∀ y, SameRun t.fingers r y → t.first ≤ y → y < t.fingers.length →
          (t.after c es m).evidence.bit y = false → y ≤ x := by
      classical
      obtain ⟨x, hx, hmax⟩ := Finset.exists_max_image
        ((Finset.range t.fingers.length).filter fun x => SameRun t.fingers r x ∧ t.first ≤ x ∧
          (t.after c es m).evidence.bit x = false) id
        ⟨r, by simp [hlt, hr, hbit, SameRun.refl]⟩
      simp only [Finset.mem_filter, Finset.mem_range] at hx
      refine ⟨x, ⟨hx.2.1, hx.2.2.1, hx.1, hx.2.2.2⟩, fun y h1 h2 h3 h4 => ?_⟩
      exact hmax y (by simp [h1, h2, h3, h4])
    have hrunLast : ¬ SameRun t.fingers i last := fun h => hrun (h.trans hl1.symm)
    rcases covered_between hreach hfail hnm hn hm hnot hl2 hl3 hl4 hrunLast with
      ⟨s, hs, hsame⟩ | ⟨p, hp, hcov, hfrom⟩
    · exact absurd ⟨s, hs, hsame.trans hl1.symm⟩ hserved
    · obtain ⟨hlow, hhigh⟩ := covers_iff.mp hcov
      refine Or.inr ⟨p, hp, fun r' h1 h2 h3 h4 => covers_iff.mpr ⟨?_, ?_⟩⟩
      · by_contra hbelow
        have hin := h1.between hl1 (show r' ≤ p.request.slotIndex by omega) hlow
        rcases hfrom with hfrom | hfrom
        · rw [hfrom] at hin
          exact hrun hin
        · exact hserved ⟨_, hfrom, hin⟩
      · exact (hmax r' h1 h2 h3 h4).trans hhigh
  · intro n m a b hnm hn hm
    obtain ⟨d, rfl⟩ : ∃ d, m = n + 1 + d := ⟨m - (n + 1), by omega⟩
    obtain ⟨last, hlast, hle⟩ := lastIssued_run hfail hn d
    have hpermits := (issuedAt_spec hm).1
    simp only [FingerRetryState.permitsIssue, hlast, Option.all_some, Bool.and_eq_true,
      decide_eq_true_eq] at hpermits
    have hpos : 0 < fingerLookupMinIntervalMs := by decide
    omega
  · intro n m a b hnm hn hnot hm
    obtain ⟨d, rfl⟩ : ∃ d, m = n + 1 + d := ⟨m - (n + 1), by omega⟩
    have hfloor := retryFloor_run hfail hn d hnot
    have hpermits := (issuedAt_spec hm).1
    simp only [FingerRetryState.permitsIssue, hfloor, Option.all_some, Bool.and_eq_true,
      decide_eq_true_eq] at hpermits
    exact hpermits.2

/-- The hints while nodes 1, 3 and 8 are known, and once 3 left. -/
def beforeLeave : RotationTable := ⟨0, [some 1, some 3, some 8, some 8], 0⟩

def afterLeave : RotationTable := ⟨0, [some 1, some 8, some 8, some 8], 0⟩

/-- Slots 2 and 3 were verified by one report before 3 left, which reopened slot 1. -/
def reopened : FingerConvergenceState :=
  ([ConvergenceEvent.prepareLookup 0 7, .cancel ⟨0, 7⟩ 1, .prepareLookup 100000 8,
    .cancel ⟨1, 8⟩ 100001, .prepareLookup 300000 9, .applyResult ⟨2, 9⟩ 8 300001].foldl
      beforeLeave.turn (.new 4)).invalidateHintChanges beforeLeave.fingers afterLeave.fingers

/-- Slot 0 is looked up, its report names 3 and is retired, and it is looked up again. -/
def retiredOnce : ℕ → ConvergenceEvent
  | 0 => .prepareLookup 400000 10
  | 1 => .retireResult ⟨0, 10⟩ 3 400001
  | 2 => .prepareLookup 500000 11
  | _ => .beginRevalidation

lemma reached_reopened : Reached 4 reopened :=
  .invalidateHintChanges _ _ (Reached.new.foldl_turn beforeLeave _)

lemma retiredOnce_fails (c : FingerConvergenceState) (k : ℕ) :
    afterLeave.Fails c (retiredOnce k) := by
  rcases k with _ | _ | _ | k <;> trivial

/-- Between the two lookups of slot 0 the run of slot 1 is served by the retired report, and the
second lookup keeps its distance from the first and the floor of the failure between them. -/
theorem lookup_rotation_once :
    let c := afterLeave.after reopened retiredOnce
    afterLeave.selects (c 0) (retiredOnce 0) = some 0 ∧
      afterLeave.selects (c 2) (retiredOnce 2) = some 0 ∧ (c 2).evidence.bit 1 = false ∧
      RunServed afterLeave reopened retiredOnce 0 2 1 ∧
      afterLeave.issuedAt (c 0) (retiredOnce 0) = some 400000 ∧
      afterLeave.issuedAt (c 2) (retiredOnce 2) = some 500000 ∧
      400000 + fingerLookupMinIntervalMs ≤ 500000 ∧
      saturatingAdd u64Max 400001 (fingerLookupBackoffMs (c 2).retry.failureStreak) ≤ 500000 := by
  intro c
  obtain ⟨hserved, hinterval, hfloor⟩ := lookup_rotation afterLeave reopened reached_reopened
    retiredOnce fun k => retiredOnce_fails _ k
  have hfirst : afterLeave.selects (c 0) (retiredOnce 0) = some 0 := by decide +kernel
  have hagain : afterLeave.selects (c 2) (retiredOnce 2) = some 0 := by decide +kernel
  have hopen : (c 2).evidence.bit 1 = false := by decide +kernel
  have hissued : afterLeave.issuedAt (c 0) (retiredOnce 0) = some 400000 := by decide +kernel
  have hreissued : afterLeave.issuedAt (c 2) (retiredOnce 2) = some 500000 := by decide +kernel
  refine ⟨hfirst, hagain, hopen, ?_, hissued, hreissued,
    hinterval 0 2 _ _ (by decide) hissued hreissued, ?_⟩
  · refine hserved 0 2 0 (by decide) hfirst hagain (fun k h1 h2 => ?_) 1 (by decide) (by decide)
      hopen fun h => absurd (h 1 (by decide) (by decide)) (by decide)
    obtain rfl : k = 1 := by omega
    exact Option.some_ne_none _ ∘ Eq.symm
  · refine hfloor 1 2 _ _ (by decide) (by decide +kernel) (fun k h1 h2 => ?_) hreissued
    omega

/-- The run of slots 1 to 3 need not lie in the proved range whole: the report retired for slot 0
proves slots 0 and 1, slots 2 and 3 were verified before, and slot 0 is selected next. -/
theorem lookup_rotation_partial_run :
    let t := afterLeave
    let es := retiredOnce
    let c := reopened
    Reached 4 c ∧ (∀ k, t.Fails (t.after c es k) (es k)) ∧
      t.selects (t.after c es 0) (es 0) = some 0 ∧ t.selects (t.after c es 2) (es 2) = some 0 ∧
      (t.after c es 2).evidence.bit 1 = false ∧ ¬ SameRun t.fingers 0 1 ∧
      (∀ s, ¬ ServedBetween t c es 0 2 s) ∧
      ∀ p, RetiredBetween t c es 0 2 p → ∃ r, SameRun t.fingers 1 r ∧ r < 4 ∧
        p.covers r = false := by
  intro t es c
  refine ⟨reached_reopened, fun k => retiredOnce_fails _ k, by decide +kernel,
    by decide +kernel, by decide +kernel, fun h => ?_, ?_, ?_⟩
  · exact absurd (h 1 (by decide) (by decide)) (by decide)
  · rintro s ⟨k, h1, h2, h3⟩
    obtain rfl : k = 1 := by omega
    cases h3
  · rintro p ⟨k, h1, h2, h3⟩
    obtain rfl : k = 1 := by omega
    refine ⟨2, fun z hz1 hz2 => ?_, by decide, ?_⟩
    · have : z = 1 ∨ z = 2 := by omega
      rcases this with rfl | rfl <;> rfl
    · have hp : t.retired (t.after c es 1) (es 1) = some ⟨⟨0, 10⟩, 1, 3, 1⟩ := by decide +kernel
      rw [hp] at h3
      obtain rfl := Option.some.inj h3
      decide

end Rings
