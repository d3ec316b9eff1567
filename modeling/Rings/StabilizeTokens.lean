import Rings.TopologyFrame

/-!
Stabilization tokens over whole runs.

A token is born when a round queries the current head, turns from requested to processing
when one report claims it, and is spent by that report. Every other event either leaves the
token alone or destroys it, so the history of a token is read backwards from its present
phase: processing came from one claim, and the claimed token came from one query.
-/

namespace Rings

/-! ### What one step does to the token -/

/-- A token present after a step was kept, requested or claimed by it, and the head stood. -/
lemma step_pending {s : TopologyState} {e : TopologyEvent} {k : ℕ} {q : StabilizationRequest}
    (h : (step s e k).state.pendingStabilization = some q) :
    successorHead (step s e k).state = successorHead s ∧
      (s.pendingStabilization = some q ∨
      (e = .beginStabilize q.requestId ∧ successorHead s = some q.reporter ∧
        q.phase = .requested ∧
        (step s e k).actions = [.querySuccessorTopology q.reporter q.requestId]) ∨
      (e = .claimStabilize q.reporter q.requestId ∧ q.phase = .processing ∧
        s.pendingStabilization = some ⟨q.reporter, q.requestId, .requested⟩)) := by
  have hhead : successorHead (step s e k).state = successorHead (stepEvent s e k).state := by
    rw [step_state]
    rfl
  rw [step_state] at h
  dsimp only at h
  split at h
  · cases h
  rename_i hstood
  rw [not_not] at hstood
  refine ⟨by rw [hhead, hstood], ?_⟩
  rw [stepEvent_pending] at h
  cases e with
  | beginStabilize id =>
    dsimp only at h
    split at h
    · cases h
    · rename_i head hh
      split at h
      · exact Or.inl h
      · rename_i hp
        obtain rfl := Option.some.inj h
        refine Or.inr (Or.inl ⟨rfl, hh, rfl, ?_⟩)
        have hact : (stepEvent s (.beginStabilize id) k).actions =
            [.querySuccessorTopology head id] := by
          simp only [stepEvent, stepBegin, hh, if_neg hp]
        simp [step, hact, ← hstood, hh]
  | claimStabilize r id =>
    dsimp only at h
    split at h
    · rename_i hc
      obtain rfl := Option.some.inj h
      exact Or.inr (Or.inr ⟨rfl, rfl,
        by simpa [TopologyState.canClaimStabilizationReport] using hc⟩)
    · exact Or.inl h
  | stabilize r id ss p =>
    dsimp only at h
    split at h
    · cases h
    · exact Or.inl h
  | cancelStabilize id => exact Or.inl (Option.filter_eq_some_iff.mp h).1
  | _ => exact Or.inl h

lemma step_cancel_pending {s : TopologyState} {k : ℕ} {id : Uuid} {q : StabilizationRequest}
    (h : (step s (.cancelStabilize id) k).state.pendingStabilization = some q) :
    q.requestId ≠ id := by
  rw [step_state] at h
  dsimp only at h
  split at h
  · cases h
  · rw [stepEvent_pending] at h
    simpa using (Option.filter_eq_some_iff.mp h).2

lemma step_stabilize_pending (s : TopologyState) (r : Did) (id : Uuid) (ss : List Did)
    (p : Option Did) (k : ℕ) :
    if s.isProcessingStabilizationReport r id then
      (step s (.stabilize r id ss p) k).state.pendingStabilization = none
    else (step s (.stabilize r id ss p) k).state = s := by
  split
  · rename_i h
    rw [step_state]
    dsimp only
    split
    · rfl
    · rw [stepEvent_pending]
      exact if_pos h
  · rename_i h
    have he : (stepEvent s (.stabilize r id ss p) k).state = s := by
      simp [stepEvent, stepStabilize, h]
    rw [step_state, he]
    simp

lemma step_stabilize_ne_iff (s : TopologyState) (r : Did) (id : Uuid) (ss : List Did)
    (p : Option Did) (k : ℕ) :
    (step s (.stabilize r id ss p) k).state ≠ s ↔
      s.pendingStabilization = some ⟨r, id, .processing⟩ := by
  have h := step_stabilize_pending s r id ss p k
  have hiff : s.isProcessingStabilizationReport r id = true ↔
      s.pendingStabilization = some ⟨r, id, .processing⟩ := by
    simp [TopologyState.isProcessingStabilizationReport]
  rw [← hiff]
  constructor
  · intro hne
    by_contra hc
    rw [if_neg hc] at h
    exact hne h
  · intro hp heq
    rw [if_pos hp, heq, hiff.mp hp] at h
    cases h

/-! ### The history of a token -/

section History

variable {k : ℕ} {s₀ : TopologyState} {es : List TopologyEvent}

def stateAt (k : ℕ) (s₀ : TopologyState) (es : List TopologyEvent) (n : ℕ) : TopologyState :=
  run k s₀ (es.take n)

lemma stateAt_succ {n : ℕ} {e : TopologyEvent} (h : es[n]? = some e) :
    stateAt k s₀ es (n + 1) = (step (stateAt k s₀ es n) e k).state := by
  rw [stateAt, List.take_add_one, h, Option.toList_some, run_append]
  rfl

lemma stateAt_succ_of_none {n : ℕ} (h : es[n]? = none) :
    stateAt k s₀ es (n + 1) = stateAt k s₀ es n := by
  rw [stateAt, List.take_add_one, h, Option.toList_none, List.append_nil, stateAt]

/-- The event of index `n` queried `r` for a topology report, as the head it then was. -/
def EmittedAt (k : ℕ) (s₀ : TopologyState) (es : List TopologyEvent) (n : ℕ) (r : Did)
    (id : Uuid) : Prop :=
  es[n]? = some (.beginStabilize id) ∧ successorHead (stateAt k s₀ es n) = some r ∧
    .querySuccessorTopology r id ∈ (step (stateAt k s₀ es n) (.beginStabilize id) k).actions

/-- The event of index `n` claimed the report of `r`. -/
def ClaimedAt (k : ℕ) (s₀ : TopologyState) (es : List TopologyEvent) (n : ℕ) (r : Did)
    (id : Uuid) : Prop :=
  es[n]? = some (.claimStabilize r id) ∧
    (stateAt k s₀ es n).canClaimStabilizationReport r id = true

lemma pending_reporter (h0 : s₀.pendingStabilization = none) (n : ℕ) {q : StabilizationRequest}
    (h : (stateAt k s₀ es n).pendingStabilization = some q) :
    successorHead (stateAt k s₀ es n) = some q.reporter := by
  induction n generalizing q with
  | zero =>
    rw [stateAt, List.take_zero, run_nil, h0] at h
    cases h
  | succ n ih =>
    rcases he : es[n]? with _ | e
    · rw [stateAt_succ_of_none he] at h ⊢
      exact ih h
    · rw [stateAt_succ he] at h ⊢
      obtain ⟨hhead, hc⟩ := step_pending h
      rw [hhead]
      rcases hc with hq | ⟨-, hh, -, -⟩ | ⟨-, -, hq⟩
      · exact ih hq
      · exact hh
      · exact ih (q := ⟨q.reporter, q.requestId, .requested⟩) hq

lemma requested_origin (h0 : s₀.pendingStabilization = none) {r : Did} {id : Uuid} (n : ℕ)
    (h : (stateAt k s₀ es n).pendingStabilization = some ⟨r, id, .requested⟩) :
    ∃ b < n, EmittedAt k s₀ es b r id ∧ ∀ m, b < m → m ≤ n →
      (stateAt k s₀ es m).pendingStabilization = some ⟨r, id, .requested⟩ := by
  induction n with
  | zero =>
    rw [stateAt, List.take_zero, run_nil, h0] at h
    cases h
  | succ n ih =>
    -- the token was there one event earlier, or this event made it
    have hstep : (stateAt k s₀ es n).pendingStabilization = some ⟨r, id, .requested⟩ ∨
        EmittedAt k s₀ es n r id := by
      rcases he : es[n]? with _ | e
      · rw [stateAt_succ_of_none he] at h
        exact Or.inl h
      · rw [stateAt_succ he] at h
        rcases (step_pending h).2 with hq | ⟨rfl, hh, -, ha⟩ | ⟨-, hp, -⟩
        · exact Or.inl hq
        · exact Or.inr ⟨he, hh, by rw [ha]; exact List.mem_singleton.mpr rfl⟩
        · cases hp
    rcases hstep with hq | hb
    · obtain ⟨b, hb, hemit, hstood⟩ := ih hq
      refine ⟨b, by omega, hemit, fun m h1 h2 => ?_⟩
      rcases Nat.lt_or_ge n m with h3 | h3
      · rwa [show m = n + 1 by omega]
      · exact hstood m h1 h3
    · refine ⟨n, by omega, hb, fun m h1 h2 => ?_⟩
      rwa [show m = n + 1 by omega]

lemma processing_origin (h0 : s₀.pendingStabilization = none) {r : Did} {id : Uuid} (n : ℕ)
    (h : (stateAt k s₀ es n).pendingStabilization = some ⟨r, id, .processing⟩) :
    ∃ c < n, ClaimedAt k s₀ es c r id ∧ ∀ m, c < m → m ≤ n →
      (stateAt k s₀ es m).pendingStabilization = some ⟨r, id, .processing⟩ := by
  induction n with
  | zero =>
    rw [stateAt, List.take_zero, run_nil, h0] at h
    cases h
  | succ n ih =>
    have hstep : (stateAt k s₀ es n).pendingStabilization = some ⟨r, id, .processing⟩ ∨
        ClaimedAt k s₀ es n r id := by
      rcases he : es[n]? with _ | e
      · rw [stateAt_succ_of_none he] at h
        exact Or.inl h
      · rw [stateAt_succ he] at h
        rcases (step_pending h).2 with hq | ⟨-, -, hp, -⟩ | ⟨rfl, -, hq⟩
        · exact Or.inl hq
        · cases hp
        · exact Or.inr ⟨he, by simpa [TopologyState.canClaimStabilizationReport] using hq⟩
    rcases hstep with hq | hc
    · obtain ⟨c, hc, hclaim, hstood⟩ := ih hq
      refine ⟨c, by omega, hclaim, fun m h1 h2 => ?_⟩
      rcases Nat.lt_or_ge n m with h3 | h3
      · rwa [show m = n + 1 by omega]
      · exact hstood m h1 h3
    · refine ⟨n, by omega, hc, fun m h1 h2 => ?_⟩
      rwa [show m = n + 1 by omega]

/-- The report of `r` that the event of index `n` applies was queried, then claimed once, with
the same head and no cancellation in between. -/
structure Authorised (k : ℕ) (s₀ : TopologyState) (es : List TopologyEvent) (n : ℕ) (r : Did)
    (id : Uuid) (b c : ℕ) : Prop where
  order : b < c ∧ c < n
  emitted : EmittedAt k s₀ es b r id
  claimed : ClaimedAt k s₀ es c r id
  once : ∀ m, b < m → m < n → ClaimedAt k s₀ es m r id → m = c
  head : ∀ m, b ≤ m → m ≤ n → successorHead (stateAt k s₀ es m) = some r
  uncancelled : ∀ m, b < m → m < n → es[m]? ≠ some (.cancelStabilize id)

lemma authorised_of_processing (h0 : s₀.pendingStabilization = none) {r : Did} {id : Uuid} {n : ℕ}
    (h : (stateAt k s₀ es n).pendingStabilization = some ⟨r, id, .processing⟩) :
    ∃ b c, Authorised k s₀ es n r id b c := by
  obtain ⟨c, hc, hclaim, hproc⟩ := processing_origin h0 n h
  have hreq : (stateAt k s₀ es c).pendingStabilization = some ⟨r, id, .requested⟩ := by
    simpa [TopologyState.canClaimStabilizationReport] using hclaim.2
  obtain ⟨b, hb, hemit, hstood⟩ := requested_origin h0 c hreq
  -- between the query and the report the token is always there, in one of its two phases
  have hpend : ∀ m, b < m → m ≤ n → ∃ ph, (stateAt k s₀ es m).pendingStabilization =
      some ⟨r, id, ph⟩ := by
    intro m h1 h2
    rcases Nat.lt_or_ge c m with h3 | h3
    · exact ⟨_, hproc m h3 h2⟩
    · exact ⟨_, hstood m h1 h3⟩
  refine ⟨b, c, ⟨⟨hb, hc⟩, hemit, hclaim, ?_, ?_, ?_⟩⟩
  · intro m h1 h2 hm
    rcases lt_trichotomy m c with h3 | h3 | h3
    · -- an earlier claim would have left the requested phase
      have hs := hstood (m + 1) (by omega) (by omega)
      rw [stateAt_succ hm.1, step_state] at hs
      dsimp only at hs
      split at hs
      · cases hs
      · rw [stepEvent_pending] at hs
        simp [hm.2] at hs
    · exact h3
    · have hs := hproc m h3 (by omega)
      have hm2 := hm.2
      simp [TopologyState.canClaimStabilizationReport, hs] at hm2
  · intro m h1 h2
    rcases Nat.eq_or_lt_of_le h1 with h3 | h3
    · rw [← h3]
      exact hemit.2.1
    · obtain ⟨ph, hp⟩ := hpend m h3 h2
      exact pending_reporter h0 m hp
  · intro m h1 h2 hm
    obtain ⟨ph, hp⟩ := hpend (m + 1) (by omega) (by omega)
    rw [stateAt_succ hm] at hp
    exact step_cancel_pending hp rfl

end History

/-! ### Counting -/

def TopologyAction.queries (id : Uuid) : TopologyAction → Bool
  | .querySuccessorTopology _ i => i = id
  | _ => false

/-- Whether the event is a report of the token `id` that changes the state. -/
def reportTakesEffect (k : ℕ) (id : Uuid) (s : TopologyState) (e : TopologyEvent) : Bool :=
  match e with
  | .stabilize _ i _ _ => i = id && (step s e k).state ≠ s
  | _ => false

/-- Whether the event is a round that emits a query with the token `id`. -/
def roundEmits (k : ℕ) (id : Uuid) (s : TopologyState) (e : TopologyEvent) : Bool :=
  match e with
  | .beginStabilize _ => (step s e k).actions.any (·.queries id)
  | _ => false

def countRun (k : ℕ) (f : TopologyState → TopologyEvent → Bool) :
    TopologyState → List TopologyEvent → ℕ
  | _, [] => 0
  | s, e :: es => (f s e).toNat + countRun k f (step s e k).state es

def held (id : Uuid) (s : TopologyState) : ℕ :=
  (s.pendingStabilization.any (·.requestId = id)).toNat

lemma held_le_one (id : Uuid) (s : TopologyState) : held id s ≤ 1 := Bool.toNat_le _

/-- One step: an effective report spends a held token, and only an emission gains one. -/
lemma held_step (k : ℕ) (id : Uuid) (s : TopologyState) (e : TopologyEvent) :
    (reportTakesEffect k id s e).toNat + held id (step s e k).state ≤
      (roundEmits k id s e).toNat + held id s := by
  by_cases heff : reportTakesEffect k id s e = true
  · cases e with
    | stabilize r i ss p =>
      simp only [reportTakesEffect, Bool.and_eq_true, decide_eq_true_eq] at heff
      obtain ⟨rfl, hne⟩ := heff
      have hp := (step_stabilize_ne_iff s r i ss p k).mp hne
      have hnone := step_stabilize_pending s r i ss p k
      rw [if_pos (by simpa [TopologyState.isProcessingStabilizationReport] using hp)] at hnone
      have h1 : held i (step s (.stabilize r i ss p) k).state = 0 := by simp [held, hnone]
      have h2 : held i s = 1 := by simp [held, hp]
      have := Bool.toNat_le (reportTakesEffect k i s (.stabilize r i ss p))
      omega
    | _ => cases heff
  · rw [Bool.not_eq_true] at heff
    rw [heff, Bool.toNat_false, Nat.zero_add]
    rcases hq : (step s e k).state.pendingStabilization with _ | q
    · simp [held, hq]
    by_cases hid : q.requestId = id
    · subst hid
      have hone := held_le_one q.requestId (step s e k).state
      rcases (step_pending hq).2 with h | ⟨rfl, -, -, ha⟩ | ⟨-, -, h⟩
      · have : held q.requestId s = 1 := by simp [held, h]
        omega
      · have : roundEmits k q.requestId s (.beginStabilize q.requestId) = true := by
          simp [roundEmits, ha, TopologyAction.queries]
        rw [this, Bool.toNat_true]
        omega
      · have : held q.requestId s = 1 := by simp [held, h]
        omega
    · simp [held, hq, hid]

/-- Along a run, effective reports are paid for by emissions and by the token held first. -/
lemma countRun_effective_le (k : ℕ) (id : Uuid) (s : TopologyState) (es : List TopologyEvent) :
    countRun k (reportTakesEffect k id) s es ≤ countRun k (roundEmits k id) s es + held id s := by
  induction es generalizing s with
  | nil => exact Nat.zero_le _
  | cons e es ih =>
    have h1 := held_step k id s e
    have h2 := ih (step s e k).state
    simp only [countRun]
    omega

/-! ### The head law -/

lemma stepEvent_actions_head (s : TopologyState) (e : TopologyEvent) (k : ℕ) (h : Did) :
    .successorHeadChanged h ∉ (stepEvent s e k).actions := by
  cases e with
  | admitPeer peer proof t =>
    simp only [stepEvent, stepAdmit]
    split
    · simp
    · dsimp only
      split <;> simp
  | beginStabilize id =>
    simp only [stepEvent, stepBegin]
    split
    · simp
    · split <;> simp
  | stabilize r id ss p =>
    simp only [stepEvent, stepStabilize]
    split
    · simp
    · simp
  | advanceFingerConvergence t id =>
    simp only [stepEvent, stepFixFinger]
    split
    · simp
    split
    · simp
    · split <;> simp
  | _ => simp [stepEvent, stepRemove, stepClaim]

/-- **The head law.** A report of the head `h` is emitted exactly when the head becomes `h`,
once, and last. -/
lemma step_actions_head (s : TopologyState) (e : TopologyEvent) (k : ℕ) (h : Did) :
    (.successorHeadChanged h ∈ (step s e k).actions ↔
      successorHead s ≠ some h ∧ successorHead (step s e k).state = some h) ∧
    (.successorHeadChanged h ∈ (step s e k).actions →
      (step s e k).actions.count (.successorHeadChanged h) = 1 ∧
      (step s e k).actions.getLast? = some (.successorHeadChanged h)) := by
  have hhead : successorHead (step s e k).state = successorHead (stepEvent s e k).state := by
    rw [step_state]
    rfl
  have hact : (step s e k).actions = (stepEvent s e k).actions ++
      ((successorHead (step s e k).state).filter (successorHead s ≠ some ·)).toList.map
        TopologyAction.successorHeadChanged := by
    rw [hhead, step, Option.toList_map]
  have hno := stepEvent_actions_head s e k h
  by_cases hc : successorHead s ≠ some h ∧ successorHead (step s e k).state = some h
  · have hf : (successorHead (step s e k).state).filter (successorHead s ≠ some ·) = some h := by
      rw [hc.2]
      simp [hc.1]
    rw [hact, hf]
    refine ⟨⟨fun _ => hc, fun _ => by simp⟩, fun _ => ⟨?_, by simp⟩⟩
    simp [List.count_append, List.count_eq_zero_of_not_mem hno]
  · have hnot : .successorHeadChanged h ∉ (step s e k).actions := by
      rw [hact]
      intro hm
      rcases List.mem_append.mp hm with hm | hm
      · exact hno hm
      · simp only [List.mem_map, Option.mem_toList,
          TopologyAction.successorHeadChanged.injEq, exists_eq_right,
          Option.filter_eq_some_iff, decide_eq_true_eq] at hm
        exact hc ⟨hm.2, hm.1⟩
    exact ⟨⟨fun hm => absurd hm hnot, fun hm => absurd hm hc⟩, fun hm => absurd hm hnot⟩

/-! ### The token laws -/

/-- **Stabilization tokens are exact and single-use**, over every run from a fresh state. -/
theorem stabilization_tokens (k : ℕ) (loc : Did) (succs : List Did) (pred : Option Did)
    (fingers : Fingers) (es : List TopologyEvent) :
    let s₀ := TopologyState.new loc succs pred fingers
    let s := stateAt k s₀ es
    (∀ n q, (s n).pendingStabilization = some q → successorHead (s n) = some q.reporter) ∧
    (∀ n r id ss p, es[n]? = some (.stabilize r id ss p) → s (n + 1) ≠ s n →
      ∃ b c, Authorised k s₀ es n r id b c) ∧
    (∀ id, countRun k (reportTakesEffect k id) s₀ es ≤ countRun k (roundEmits k id) s₀ es) ∧
    (∀ n e h, es[n]? = some e →
      (.successorHeadChanged h ∈ (step (s n) e k).actions ↔
        successorHead (s n) ≠ some h ∧ successorHead (s (n + 1)) = some h) ∧
      (.successorHeadChanged h ∈ (step (s n) e k).actions →
        (step (s n) e k).actions.count (.successorHeadChanged h) = 1 ∧
        (step (s n) e k).actions.getLast? = some (.successorHeadChanged h))) := by
  intro s₀ s
  have h0 : s₀.pendingStabilization = none := rfl
  refine ⟨fun n q => pending_reporter h0 n, ?_, ?_, ?_⟩
  · intro n r id ss p he hne
    have hs : s (n + 1) = (step (s n) (.stabilize r id ss p) k).state := stateAt_succ he
    rw [hs] at hne
    exact authorised_of_processing h0 ((step_stabilize_ne_iff _ r id ss p k).mp hne)
  · intro id
    have h := countRun_effective_le k id s₀ es
    have hz : held id s₀ = 0 := by simp [held, h0]
    omega
  · intro n e h he
    have hs : s (n + 1) = (step (s n) e k).state := stateAt_succ he
    rw [hs]
    exact step_actions_head (s n) e k h

end Rings
