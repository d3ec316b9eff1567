import Rings.MaintenanceRuns

/-!
The laws of the maintenance schedule.

A poll that selects nothing leaves the schedule quiet until the next wake. A stabilization is
followed by the repair it reserved, never comes right behind another or behind a repair, and a
due finger turn waits for at most two other tasks. Every periodic repair deadline becomes an
intent at the first observation behind it.
-/

namespace Rings

def FingerConvergenceStatus.later (status : FingerConvergenceStatus) (elapsedMs : ℕ) :
    FingerConvergenceStatus :=
  { status with
    phase := match status.phase with
      | .awaitingReport remainingMs => .awaitingReport (remainingMs - elapsedMs)
      | .awaitingAdmission remainingMs => .awaitingAdmission (remainingMs - elapsedMs)
      | phase => phase }

namespace MaintenanceSchedule

variable {s s' : MaintenanceSchedule} {t t' clock : ℕ} {pending : Bool}
  {status : FingerConvergenceStatus} {turn : Turn} {turns : List Turn}

/-! ### Quiet until the next wake -/

lemma mayAdvance_later (status : FingerConvergenceStatus) (elapsed : ℕ) :
    (status.later elapsed).mayAdvance = status.mayAdvance := by
  rcases status with ⟨_ | _ | _ | _ | _, _⟩ <;> rfl

lemma reconciled_phase (s : MaintenanceSchedule) (t : ℕ) (status : FingerConvergenceStatus) :
    (s.reconciled t status).fingerPhaseLastPoll = status.phase ∧
      (s.reconciled t status).fingerFailureStreak = status.failureStreak := by
  rw [reconciled, rephaseStaleFingerDeadline]
  dsimp only
  split <;> exact ⟨rfl, rfl⟩

/-- The finger deadline of an awaiting phase is the end of its lease. -/
lemma reconciled_lease {deadline : ℕ} (h : leaseDeadlineMs status.phase t = some deadline) :
    (s.reconciled t status).nextFingerMs = deadline := by
  rcases status with ⟨phase, streak⟩
  cases phase with
  | dormant | converged | runnable => cases h
  | awaitingReport remaining | awaitingAdmission remaining =>
    cases h
    rw [reconciled, rephaseStaleFingerDeadline, if_neg fun hphase => by cases hphase.1]
    rfl

/-- The schedule a poll at `t` leaves when it selects nothing. -/
structure Quiet (s : MaintenanceSchedule) (t : ℕ) (pending : Bool)
    (status : FingerConvergenceStatus) : Prop where
  good : s.Good
  stabilize : t < s.nextStabilizeMs
  repair : t < s.nextRepairMs
  start : pending = true → s.canStartStorageRepair t = false
  reserved : s.repairTurnReserved = true → pending = true → t < s.repairNotBeforeMs
  finger : status.mayAdvance = true → t < s.nextFingerMs
  phase : s.fingerPhaseLastPoll = status.phase
  streak : s.fingerFailureStreak = status.failureStreak
  lease : ∀ deadline, leaseDeadlineMs status.phase t = some deadline → s.nextFingerMs = deadline

lemma nextRepairMs_poll (ht : t < u64Max) : t < (s.poll t pending status).1.nextRepairMs := by
  rw [(s.polled t pending status).nextRepairMs]
  split
  · assumption
  · exact lt_nextDeadlineAfter ht

lemma quiet_of_none {pending' : Bool} (h : s.Good) (ht : Far t)
    (hnone : s.taskAt t pending status = none)
    (hpending : pending' = true → s.effectivePending t pending = true) :
    (s.poll t pending status).1.Quiet t pending' status := by
  have hpolled := s.polled t pending status
  have htask := hpolled.task
  rw [show (s.poll t pending status).2.task = none from hnone] at htask
  split_ifs at htask with h1 h2 h3 h4 h5
  refine ⟨h.poll, ?_, nextRepairMs_poll ht.lt, fun hp => ?_, fun hreserved hp => ?_,
    fun hmay => ?_, ?_, ?_, fun deadline hlease => ?_⟩
  · rw [hpolled.nextStabilizeMs]
    exact not_le.1 h3
  · rw [hpending hp, Bool.true_and] at h4
    rw [Bool.not_eq_true] at h4
    rw [(hpolled.canStart t).1, h4]
  · rw [hpolled.reserved, Bool.and_eq_true] at hreserved
    rw [reservedRepairReady, hreserved.1, hpending hp] at h2
    rw [hpolled.repairNotBeforeMs]
    simpa using h2
  · rw [fingerReady, hmay] at h5
    rw [hpolled.nextFingerMs]
    simpa using h5
  · rw [hpolled.fingerPhase]
    exact (s.reconciled_phase t status).1
  · rw [hpolled.fingerStreak]
    exact (s.reconciled_phase t status).2
  · rw [hpolled.nextFingerMs]
    exact reconciled_lease hlease

lemma Quiet.nextWakeMs (h : s.Quiet t pending status) :
    s.nextWakeMs t pending status.mayAdvance =
      if pending = true ∧ t < s.repairNotBeforeMs ∧
          s.hasStorageRepairWindow s.repairNotBeforeMs = true then
        min (if status.mayAdvance then min (min s.nextStabilizeMs s.nextRepairMs) s.nextFingerMs
          else min s.nextStabilizeMs s.nextRepairMs) s.repairNotBeforeMs
      else if status.mayAdvance then min (min s.nextStabilizeMs s.nextRepairMs) s.nextFingerMs
      else min s.nextStabilizeMs s.nextRepairMs := by
  rw [MaintenanceSchedule.nextWakeMs]
  cases hp : pending with
  | false => simp
  | true =>
    rw [if_neg (by simp), h.start hp, if_neg (by simp)]
    simp

lemma Quiet.lt_wake (h : s.Quiet t pending status) :
    t < s.nextWakeMs t pending status.mayAdvance := by
  have hstabilize := h.stabilize
  have hrepair := h.repair
  have hfinger := h.finger
  rw [h.nextWakeMs]
  split_ifs with h1 h2 h2
  · have := hfinger h2
    omega
  · omega
  · have := hfinger h2
    omega
  · omega

lemma Quiet.nextFingerMs (h : s.Quiet t pending status) (hmay : status.mayAdvance = true)
    (ht : t ≤ t') (hlt : t' < s.nextFingerMs) :
    (s.reconciled t' (status.later (t' - t))).nextFingerMs = s.nextFingerMs := by
  have hphase := h.phase
  have hstreak := h.streak
  have hlease := h.lease
  rcases status with ⟨phase, streak⟩
  cases phase with
  | dormant | converged => cases hmay
  | runnable =>
    -- a deadline ahead is not stale, whatever the gap between the observations
    have hstale : t' - s.nextFingerMs = 0 := Nat.sub_eq_zero_of_le hlt.le
    have hsame : ({ s with lastObservedMs := max s.lastObservedMs t' } :
        MaintenanceSchedule).reconcileFingerStatus t' ⟨.runnable, streak⟩ =
          { s with
            lastObservedMs := max s.lastObservedMs t'
            fingerPhaseLastPoll := .runnable
            fingerFailureStreak := streak } := by
      simp only [reconcileFingerStatus, hphase, hstreak, ne_eq, not_true_eq_false, if_false]
    rw [reconciled, FingerConvergenceStatus.later]
    dsimp only
    rw [hsame, rephaseStaleFingerDeadline, if_neg]
    rintro ⟨-, -, -, hthreshold⟩
    dsimp only at hthreshold
    rw [hstale] at hthreshold
    exact absurd hthreshold (by decide)
  | awaitingReport remaining | awaitingAdmission remaining =>
    have hdeadline := hlease _ rfl
    have hmin : s.nextFingerMs = min (t + remaining) u64Max := hdeadline
    have hlater : saturatingAdd u64Max t' (remaining - (t' - t)) = s.nextFingerMs := by
      rw [hmin] at hlt ⊢
      rw [saturatingAdd]
      omega
    refine reconciled_lease ?_
    rw [← hlater]
    rfl

lemma canStart_iff (now : ℕ) : s.canStartStorageRepair now = true ↔
    s.repairNotBeforeMs ≤ now ∧ s.requiredRepairWindowMs ≤ s.nextStabilizeMs - now := by
  rw [canStartStorageRepair, hasStorageRepairWindow, storageRepairWindowMs, Bool.and_eq_true,
    decide_eq_true_eq, decide_eq_true_eq]

lemma hasWindow_iff (now : ℕ) : s.hasStorageRepairWindow now = true ↔
    s.requiredRepairWindowMs ≤ s.nextStabilizeMs - now := by
  rw [hasStorageRepairWindow, storageRepairWindowMs, decide_eq_true_eq]

lemma Quiet.before_wake (h : s.Quiet t pending status) (ht : t ≤ t')
    (hwake : t' < s.nextWakeMs t pending status.mayAdvance) :
    t' < s.nextStabilizeMs ∧ t' < s.nextRepairMs ∧
      (status.mayAdvance = true → t' < s.nextFingerMs) ∧
      (pending = true → s.canStartStorageRepair t' = false) ∧
      (s.repairTurnReserved = true → pending = true → t' < s.repairNotBeforeMs) := by
  rw [h.nextWakeMs] at hwake
  have hquiet : t' < s.nextStabilizeMs ∧ t' < s.nextRepairMs ∧
      (status.mayAdvance = true → t' < s.nextFingerMs) := by
    split_ifs at hwake with h1 h2 h2 <;> refine ⟨by omega, by omega, fun hmay => ?_⟩
    · omega
    · exact absurd hmay h2
    · omega
    · exact absurd hmay h2
  -- a window at the start of the repair phase wakes the loop there
  have hstart : pending = true → s.requiredRepairWindowMs ≤
      s.nextStabilizeMs - s.repairNotBeforeMs → t < s.repairNotBeforeMs →
      t' < s.repairNotBeforeMs := by
    intro hp hwindow hlt
    rw [if_pos ⟨hp, hlt, (hasWindow_iff _).2 hwindow⟩] at hwake
    omega
  refine ⟨hquiet.1, hquiet.2.1, hquiet.2.2, fun hp => ?_, fun hreserved hp => ?_⟩
  · by_contra hcan
    rw [Bool.not_eq_false, canStart_iff] at hcan
    by_cases hlt : t < s.repairNotBeforeMs
    · have := hstart hp (hcan.2.trans (by omega)) hlt
      omega
    · have hnow : s.canStartStorageRepair t = true :=
        (canStart_iff t).2 ⟨not_lt.1 hlt, hcan.2.trans (by omega)⟩
      rw [h.start hp] at hnow
      cases hnow
  · have hwindow := h.good.window hreserved
    exact hstart hp (by omega) (h.reserved hreserved hp)

/-- **Polls before the wake select nothing** and leave the wake where it is. -/
lemma Quiet.poll (h : s.Quiet t pending status) (ht : t ≤ t')
    (hwake : t' < s.nextWakeMs t pending status.mayAdvance) :
    s.taskAt t' pending (status.later (t' - t)) = none ∧
      (s.poll t' pending (status.later (t' - t))).1.Quiet t' pending (status.later (t' - t)) ∧
      (s.poll t' pending (status.later (t' - t))).1.nextWakeMs t' pending
        (status.later (t' - t)).mayAdvance = s.nextWakeMs t pending status.mayAdvance := by
  obtain ⟨hstabilize, hrepair, hfinger, hstart, hreserved⟩ := h.before_wake ht hwake
  have hpolled := s.polled t' pending (status.later (t' - t))
  have heff : s.effectivePending t' pending = pending := by
    simp [effectivePending, hrepair]
  have hready : s.fingerReady t' (status.later (t' - t)) = false := by
    rw [fingerReady, mayAdvance_later]
    cases hmay : status.mayAdvance with
    | false => rfl
    | true =>
      rw [h.nextFingerMs hmay ht (hfinger hmay), Bool.true_and]
      exact decide_eq_false (not_le.2 (hfinger hmay))
  have hnone : s.taskAt t' pending (status.later (t' - t)) = none := by
    have htask := hpolled.task
    rw [hready, heff, if_neg (fun hor => by cases hor.1), if_neg, if_neg (not_le.2 hstabilize),
      if_neg, if_neg Bool.false_ne_true] at htask
    · exact htask
    · intro hcan
      rw [Bool.and_eq_true] at hcan
      rw [hstart hcan.1] at hcan
      exact Bool.false_ne_true hcan.2
    · intro hres
      rw [reservedRepairReady, Bool.and_eq_true, Bool.and_eq_true, decide_eq_true_eq] at hres
      have := hreserved hres.1.1 hres.1.2
      omega
  have hfingerSame : status.mayAdvance = true →
      (s.poll t' pending (status.later (t' - t))).1.nextFingerMs = s.nextFingerMs := fun hmay =>
    hpolled.nextFingerMs.trans (h.nextFingerMs hmay ht (hfinger hmay))
  have hrepairSame : (s.poll t' pending (status.later (t' - t))).1.nextRepairMs =
      s.nextRepairMs := by
    rw [hpolled.nextRepairMs, if_pos hrepair]
  have hquiet : (s.poll t' pending (status.later (t' - t))).1.Quiet t' pending
      (status.later (t' - t)) := by
    refine ⟨h.good.poll, ?_, ?_, fun hp => ?_, fun hres hp => ?_, fun hmay => ?_, ?_, ?_,
      fun deadline hlease => ?_⟩
    · rw [hpolled.nextStabilizeMs]
      exact hstabilize
    · rw [hrepairSame]
      exact hrepair
    · rw [(hpolled.canStart t').1]
      exact hstart hp
    · rw [hpolled.reserved, Bool.and_eq_true] at hres
      rw [hpolled.repairNotBeforeMs]
      exact hreserved hres.1 hp
    · rw [mayAdvance_later] at hmay
      rw [hfingerSame hmay]
      exact hfinger hmay
    · rw [hpolled.fingerPhase]
      exact (s.reconciled_phase t' _).1
    · rw [hpolled.fingerStreak]
      exact (s.reconciled_phase t' _).2
    · rw [hpolled.nextFingerMs]
      exact reconciled_lease hlease
  refine ⟨hnone, hquiet, ?_⟩
  have hcond : (pending = true ∧ t' < s.repairNotBeforeMs ∧
      s.hasStorageRepairWindow s.repairNotBeforeMs = true) ↔
      (pending = true ∧ t < s.repairNotBeforeMs ∧
        s.hasStorageRepairWindow s.repairNotBeforeMs = true) := by
    refine ⟨fun hor => ⟨hor.1, by omega, hor.2.2⟩, fun hor => ⟨hor.1, ?_, hor.2.2⟩⟩
    rw [h.nextWakeMs, if_pos hor] at hwake
    omega
  rw [hquiet.nextWakeMs, h.nextWakeMs, mayAdvance_later, hpolled.repairNotBeforeMs,
    (hpolled.canStart _).2, hpolled.nextStabilizeMs, hrepairSame]
  simp only [hcond]
  cases hmay : status.mayAdvance with
  | false => rfl
  | true => rw [hfingerSame hmay]

/-- Polls with the same inputs at later and later instants select nothing. -/
def Silent (s : MaintenanceSchedule) (t : ℕ) (pending : Bool)
    (status : FingerConvergenceStatus) : List ℕ → Prop
  | [] => True
  | t' :: later => s.taskAt t' pending (status.later (t' - t)) = none ∧
      (s.poll t' pending (status.later (t' - t))).1.Silent t' pending (status.later (t' - t)) later

lemma Quiet.silent (h : s.Quiet t pending status) {later : List ℕ}
    (hsorted : (t :: later).Pairwise (· ≤ ·))
    (hwake : ∀ t' ∈ later, t' < s.nextWakeMs t pending status.mayAdvance) :
    s.Silent t pending status later := by
  induction later generalizing s t status with
  | nil => trivial
  | cons t' later ih =>
    obtain ⟨hle, hrest⟩ := List.pairwise_cons.1 hsorted
    obtain ⟨hnone, hquiet, hsame⟩ :=
      h.poll (hle t' List.mem_cons_self) (hwake t' List.mem_cons_self)
    refine ⟨hnone, ih hquiet hrest fun t'' ht'' => ?_⟩
    rw [hsame]
    exact hwake t'' (List.mem_cons_of_mem _ ht'')

/-! ### Stabilization and repair -/

lemma nextStabilizeMs_le_step (h : s.Good) (turn : Turn) :
    s.nextStabilizeMs ≤ (s.step turn).2.nextStabilizeMs := by
  have hpolled := s.polled turn.now turn.pending turn.status
  have hle : s.nextStabilizeMs ≤
      (s.poll turn.now turn.pending turn.status).1.nextStabilizeMs := hpolled.nextStabilizeMs.ge
  rcases s.step_cases turn with ⟨-, heq⟩ | ⟨-, heq⟩ | ⟨-, -, heq⟩ | ⟨-, _, -, heq⟩ | ⟨-, heq⟩
  · rw [heq]
    exact hle
  · rw [heq, (stabilized _ turn.completedAt turn.pendingAfter).nextStabilizeMs]
    refine hle.trans ?_
    have hgood : (s.poll turn.now turn.pending turn.status).1.Good := h.poll
    have hnext := @le_nextDeadlineAfter _
      (s.poll turn.now turn.pending turn.status).1.periodMs turn.completedAt hgood.stabilize_le
    split
    · exact hnext.trans (le_max_left _ _)
    · exact hnext
  · rw [heq]
    exact hle
  · rw [heq]
    exact hle.trans (le_max_left _ _)
  · rw [heq, (sameDeadlines_completeFinger _ _ _).1.nextStabilizeMs]
    exact hle

lemma nextStabilizeMs_le_run (h : s.Good) (htimed : s.Timed clock turns) :
    s.nextStabilizeMs ≤ (s.run turns).nextStabilizeMs := by
  induction turns generalizing s clock with
  | nil => exact le_rfl
  | cons turn turns ih =>
    obtain ⟨-, -, hfar, hrest⟩ := htimed
    exact (nextStabilizeMs_le_step h turn).trans (ih (h.step hfar) hrest)

/-- A selected stabilization is due, and no reserved repair is ready. -/
lemma of_stabilize (h : s.taskAt t pending status = some .stabilize) :
    s.nextStabilizeMs ≤ t ∧
      s.reservedRepairReady t (s.effectivePending t pending) = false := by
  have htask := (s.polled t pending status).task
  rw [show (s.poll t pending status).2.task = some .stabilize from h] at htask
  split at htask
  · cases htask
  · split at htask
    · cases htask
    · rename_i hready
      split at htask
      · rename_i hdue
        exact ⟨hdue, Bool.eq_false_iff.2 hready⟩
      · split at htask
        · cases htask
        · split at htask <;> cases htask

lemma lt_nextStabilizeMs_of_stabilize (htask : s.taskOf turn = some .stabilize)
    (hfar : Far turn.completedAt) : turn.completedAt < (s.step turn).2.nextStabilizeMs := by
  rcases s.step_cases turn with ⟨h, -⟩ | ⟨-, heq⟩ | ⟨h, -⟩ | ⟨h, -⟩ | ⟨h, -⟩
  · rw [h] at htask
    cases htask
  · rw [heq, (stabilized _ turn.completedAt turn.pendingAfter).nextStabilizeMs]
    have hlt := @lt_nextDeadlineAfter
      (s.poll turn.now turn.pending turn.status).1.nextStabilizeMs
      (s.poll turn.now turn.pending turn.status).1.periodMs turn.completedAt hfar.lt
    split
    · exact hlt.trans_le (le_max_left _ _)
    · exact hlt
  all_goals
    rw [h] at htask
    cases htask

lemma le_nextStabilizeMs_of_repair (htask : s.taskOf turn = some .repair)
    (houtcome : turn.outcome ≠ none) (hfar : Far turn.completedAt) :
    turn.completedAt + maintenanceQuietGap ≤ (s.step turn).2.nextStabilizeMs := by
  rcases s.step_cases turn with ⟨h, -⟩ | ⟨h, -⟩ | ⟨-, h, -⟩ | ⟨-, _, -, heq⟩ | ⟨h, -⟩
  · rw [h] at htask
    cases htask
  · rw [h] at htask
    cases htask
  · exact absurd h houtcome
  · rw [heq, ← hfar.saturatingAdd (by decide : maintenanceQuietGap ≤ 10000)]
    exact le_max_right _ _
  · rw [h] at htask
    cases htask

/-- A repair turn stays reserved while its repair is pending and not selected, and no
stabilization is selected meanwhile. -/
lemma reserved_step (h : s.Good) (hreserved : s.repairTurnReserved = true)
    (hpending : turn.pending = true) (htask : s.taskOf turn ≠ some .repair) :
    s.taskOf turn ≠ some .stabilize ∧ (s.step turn).2.repairTurnReserved = true := by
  have hpolled := s.polled turn.now turn.pending turn.status
  have heff : s.effectivePending turn.now turn.pending = true := by
    rw [effectivePending, hpending, Bool.true_or]
  have hkept : (s.poll turn.now turn.pending turn.status).1.repairTurnReserved = true := by
    rw [hpolled.reserved, hreserved, heff]
    rfl
  have hnot : s.taskOf turn ≠ some .stabilize := by
    intro hstabilize
    obtain ⟨hdue, hready⟩ := of_stabilize hstabilize
    have hwindow := h.window hreserved
    rw [reservedRepairReady, hreserved, heff, Bool.true_and, Bool.true_and,
      decide_eq_false_iff_not] at hready
    omega
  refine ⟨hnot, ?_⟩
  rcases s.step_cases turn with ⟨-, heq⟩ | ⟨h', -⟩ | ⟨h', -⟩ | ⟨h', -⟩ | ⟨-, heq⟩
  · rw [heq]
    exact hkept
  · exact absurd h' hnot
  · exact absurd h' htask
  · exact absurd h' htask
  · rw [heq, (sameDeadlines_completeFinger _ _ _).1.reserved]
    exact hkept

/-- A stabilization reserves the next turn for a pending repair. -/
lemma reserved_of_stabilize (htask : s.taskOf turn = some .stabilize)
    (hpending : turn.pendingAfter = true ∨
      (s.poll turn.now turn.pending turn.status).1.nextRepairMs ≤ turn.completedAt) :
    (s.step turn).2.repairTurnReserved = true := by
  rcases s.step_cases turn with ⟨h, -⟩ | ⟨-, heq⟩ | ⟨h, -⟩ | ⟨h, -⟩ | ⟨h, -⟩
  · rw [h] at htask
    cases htask
  · have hdone := stabilized (s.poll turn.now turn.pending turn.status).1 turn.completedAt
      turn.pendingAfter
    rw [heq, hdone.reserved, hdone.due_eq]
    rcases hpending with hpending | hdue
    · rw [hpending, Bool.true_or]
    · rw [decide_eq_true hdue, Bool.or_true]
  all_goals
    rw [h] at htask
    cases htask

def Repairs (s : MaintenanceSchedule) : List Turn → Prop
  | [] => False
  | turn :: turns => s.taskOf turn = some .repair ∨ (s.step turn).2.Repairs turns

lemma reserved_run (h : s.Good) (htimed : s.Timed clock turns)
    (hreserved : s.repairTurnReserved = true) (hpending : ∀ turn ∈ turns, turn.pending = true)
    (hrepairs : ¬ s.Repairs turns) : (s.run turns).repairTurnReserved = true := by
  induction turns generalizing s clock with
  | nil => exact hreserved
  | cons turn turns ih =>
    obtain ⟨-, -, hfar, hrest⟩ := htimed
    rw [Repairs, not_or] at hrepairs
    obtain ⟨-, hkept⟩ := reserved_step h hreserved (hpending turn List.mem_cons_self) hrepairs.1
    exact ih (h.step hfar) hrest hkept (fun z hz => hpending z (List.mem_cons_of_mem _ hz))
      hrepairs.2

/-! ### Finger turns -/

/-- Turns at which a finger turn is due and other tasks are selected. -/
def Yields (s : MaintenanceSchedule) : List Turn → Prop
  | [] => True
  | turn :: turns => s.fingerReady turn.now turn.status = true ∧
      s.taskOf turn ≠ some .convergeFingers ∧ (s.step turn).2.Yields turns

lemma deferrals_step (s : MaintenanceSchedule) (turn : Turn) :
    (s.step turn).2.fingerPriorityDeferrals =
      (s.poll turn.now turn.pending turn.status).1.fingerPriorityDeferrals := by
  rcases s.step_cases turn with ⟨-, heq⟩ | ⟨-, heq⟩ | ⟨-, -, heq⟩ | ⟨-, _, -, heq⟩ | ⟨-, heq⟩
  · rw [heq]
  · rw [heq, (stabilized _ _ _).deferrals]
  · rw [heq]
  · rw [heq]
    rfl
  · rw [heq, (sameDeadlines_completeFinger _ _ _).2]

lemma task_of_ready (h : s.fingerReady t status = true) : s.taskAt t pending status ≠ none := by
  rw [taskAt, (s.polled t pending status).task, h, if_pos (rfl : true = true)]
  split_ifs <;> simp

lemma deferrals_of_yield (hfar : Far turn.now)
    (hready : s.fingerReady turn.now turn.status = true)
    (htask : s.taskOf turn ≠ some .convergeFingers) :
    s.fingerPriorityDeferrals < maxFingerPriorityDeferrals ∧
      (s.step turn).2.fingerPriorityDeferrals = s.fingerPriorityDeferrals + 1 := by
  have hpolled := s.polled turn.now turn.pending turn.status
  have hsame : (s.reconciled turn.now turn.status).fingerPriorityDeferrals =
      s.fingerPriorityDeferrals := by
    rcases s.deferrals_reconciled turn.now turn.status with heq | ⟨-, hlater⟩
    · exact heq
    · rw [fingerReady, Bool.and_eq_true, decide_eq_true_eq] at hready
      have := hlater hfar.lt
      omega
  have hchoice := hpolled.task
  rw [show (s.poll turn.now turn.pending turn.status).2.task = s.taskOf turn from rfl] at hchoice
  have hfew : s.fingerPriorityDeferrals < maxFingerPriorityDeferrals := by
    by_contra hmany
    rw [if_pos ⟨hready, hsame ▸ not_lt.1 hmany⟩] at hchoice
    exact htask hchoice
  refine ⟨hfew, ?_⟩
  rw [deferrals_step, hpolled.deferrals, hready]
  have hmax : saturatingAdd u8Max s.fingerPriorityDeferrals 1 = s.fingerPriorityDeferrals + 1 := by
    have hu8 : maxFingerPriorityDeferrals + 1 ≤ u8Max := by decide
    rw [saturatingAdd]
    omega
  cases hd : (s.poll turn.now turn.pending turn.status).2.task with
  | none =>
    exact absurd hd (task_of_ready hready)
  | some task =>
    cases task with
    | convergeFingers => exact absurd hd htask
    | _ =>
      change saturatingAdd u8Max (s.reconciled turn.now turn.status).fingerPriorityDeferrals 1 = _
      rw [hsame]
      exact hmax

lemma length_of_yields (h : s.Good) (htimed : s.Timed clock turns) (hyields : s.Yields turns) :
    turns.length + s.fingerPriorityDeferrals ≤ maxFingerPriorityDeferrals := by
  induction turns generalizing s clock with
  | nil =>
    rw [List.length_nil, Nat.zero_add]
    exact h.deferrals
  | cons turn turns ih =>
    obtain ⟨-, hnow, hfar, hrest⟩ := htimed
    obtain ⟨hready, htask, hyields⟩ := hyields
    obtain ⟨-, hcount⟩ := deferrals_of_yield (hnow.trans_lt hfar) hready htask
    have hih := ih (h.step hfar) hrest hyields
    rw [hcount] at hih
    rw [List.length_cons]
    omega

/-! ### Periodic repair deadlines -/

/-- The next deadline of a period leaves out only deadlines that passed. -/
lemma exists_nextDeadlineAfter {deadline period now : ℕ} (hp : 0 < period) (hd : deadline ≤ now)
    (hnow : now < u64Max) : ∃ j, nextDeadlineAfter deadline period now =
      min (deadline + j * period) u64Max ∧ ∀ i < j, deadline + i * period ≤ now := by
  have hlt : (now - deadline) / period ≤ now - deadline := Nat.div_le_self _ _
  have hperiods : saturatingAdd u64Max ((now - deadline) / period) 1 =
      (now - deadline) / period + 1 := by
    rw [saturatingAdd]
    omega
  have hover : now - deadline < ((now - deadline) / period + 1) * period :=
    (Nat.div_lt_iff_lt_mul hp).1 (Nat.lt_succ_self _)
  refine ⟨(now - deadline) / period + 1, ?_, fun i hi => ?_⟩
  · rw [nextDeadlineAfter, hperiods]
    generalize ((now - deadline) / period + 1) * period = m at hover
    have hnext : saturatingAdd u64Max deadline (min m u64Max) = min (deadline + m) u64Max := by
      rw [saturatingAdd]
      omega
    rw [hnext, if_neg (by omega)]
  · have hmul : i * period ≤ (now - deadline) / period * period :=
      Nat.mul_le_mul_right _ (Nat.le_of_lt_succ hi)
    have hdiv := Nat.div_mul_le_self (now - deadline) period
    omega

/-- Of the deadlines `first`, `first + period`, and so on, the schedule waits for one, and an
intent was created at or after each before it. -/
structure Reported (first period : ℕ) (s : MaintenanceSchedule) (intents : List ℕ) : Prop where
  periodMs : s.periodMs = period
  next : ∃ k, s.nextRepairMs = min (first + k * period) u64Max ∧
    ∀ i < k, ∃ τ ∈ intents, first + i * period ≤ τ

def intentAt (s : MaintenanceSchedule) (t : ℕ) : List ℕ :=
  if decide (s.nextRepairMs ≤ t) then [t] else []

/-- An observation creates an intent when the deadline passed, and then waits for a later one. -/
lemma Reported.observe {first period now : ℕ} {l : List ℕ} (hp : 0 < period)
    (h : Reported first period s l) (hnow : now < u64Max) (hperiod : s'.periodMs = s.periodMs)
    (hrepair : s'.nextRepairMs = if now < s.nextRepairMs then s.nextRepairMs
      else nextDeadlineAfter s.nextRepairMs s.periodMs now) :
    Reported first period s' (l ++ s.intentAt now) ∧ now < s'.nextRepairMs := by
  rw [intentAt]
  obtain ⟨k, hk, hreported⟩ := h.next
  by_cases hdue : now < s.nextRepairMs
  · rw [if_pos hdue] at hrepair
    rw [decide_eq_false (not_le.2 hdue), if_neg Bool.false_ne_true, List.append_nil, hrepair]
    exact ⟨⟨hperiod.trans h.periodMs, k, hrepair.trans hk, hreported⟩, hdue⟩
  · rw [if_neg hdue] at hrepair
    have hle := not_lt.1 hdue
    have hexact : s.nextRepairMs = first + k * period := by omega
    obtain ⟨j, hj, hpassed⟩ := exists_nextDeadlineAfter hp hle hnow
    rw [decide_eq_true hle, if_pos rfl, hrepair]
    refine ⟨⟨hperiod.trans h.periodMs, k + j, ?_, fun i hi => ?_⟩, lt_nextDeadlineAfter hnow⟩
    · rw [hrepair, h.periodMs, hj, hexact, Nat.add_mul, Nat.add_assoc]
    · by_cases hik : i < k
      · obtain ⟨τ, hτ, hile⟩ := hreported i hik
        exact ⟨τ, List.mem_append_left _ hτ, hile⟩
      · refine ⟨now, List.mem_append_right _ List.mem_cons_self, ?_⟩
        have hlast := hpassed (i - k) (by omega)
        have hsplit : i * period = k * period + (i - k) * period := by
          rw [← Nat.add_mul, Nat.add_sub_cancel' (not_lt.1 hik)]
        omega

lemma step_intents (h : s.taskOf turn ≠ some .stabilize) :
    (s.step turn).1 = s.intentAt turn.now := by
  rw [intentAt, ← (s.polled turn.now turn.pending turn.status).periodicRepairDue, step]
  rw [taskOf, taskAt] at h
  dsimp only
  cases htask : (s.poll turn.now turn.pending turn.status).2.task with
  | none => rfl
  | some task =>
    cases task with
    | stabilize => exact absurd htask h
    | repair => cases houtcome : turn.outcome <;> simp [runMaintenanceTask, houtcome]
    | convergeFingers => simp [runMaintenanceTask]

lemma step_intents_stabilize (h : s.taskOf turn = some .stabilize) :
    (s.step turn).1 = s.intentAt turn.now ++
      (s.poll turn.now turn.pending turn.status).1.intentAt turn.completedAt := by
  have hdue := (stabilized (s.poll turn.now turn.pending turn.status).1 turn.completedAt
    turn.pendingAfter).due_eq
  rw [intentAt, ← (s.polled turn.now turn.pending turn.status).periodicRepairDue, intentAt,
    ← hdue, step]
  dsimp only
  rw [show (s.poll turn.now turn.pending turn.status).2.task = some .stabilize from h]
  rfl

variable {first period : ℕ} {l : List ℕ}

lemma Reported.poll (hp : 0 < period) (h : Reported first period s l) (ht : Far t) :
    Reported first period (s.poll t pending status).1 (l ++ s.intentAt t) ∧
      t < (s.poll t pending status).1.nextRepairMs :=
  h.observe hp ht.lt (s.polled t pending status).periodMs (s.polled t pending status).nextRepairMs

lemma Reported.same (h : Reported first period s l) (hsame : SameDeadlines s s') :
    Reported first period s' l := by
  refine ⟨hsame.periodMs.trans h.periodMs, ?_⟩
  rw [hsame.nextRepairMs]
  exact h.next

lemma Reported.step (hp : 0 < period) (h : Reported first period s l) (hnow : Far turn.now)
    (hfar : Far (s.lastInstant turn)) :
    Reported first period (s.step turn).2 (l ++ (s.step turn).1) ∧
      (s.taskOf turn = some .stabilize → turn.completedAt < (s.step turn).2.nextRepairMs) := by
  have hpoll := (@Reported.poll s turn.now turn.pending turn.status _ _ _ hp h hnow).1
  by_cases htask : s.taskOf turn = some .stabilize
  · rw [lastInstant_of_task htask] at hfar
    have hdone := stabilized (s.poll turn.now turn.pending turn.status).1 turn.completedAt
      turn.pendingAfter
    have hobserved := hpoll.observe hp hfar.lt hdone.periodMs hdone.nextRepairMs
    rw [step_intents_stabilize htask, ← List.append_assoc]
    rcases s.step_cases turn with ⟨h', -⟩ | ⟨-, heq⟩ | ⟨h', -⟩ | ⟨h', -⟩ | ⟨h', -⟩
    · rw [htask] at h'
      cases h'
    · rw [heq]
      exact ⟨hobserved.1, fun _ => hobserved.2⟩
    all_goals
      rw [htask] at h'
      cases h'
  · rw [step_intents htask]
    refine ⟨?_, fun hor => absurd hor htask⟩
    rcases s.step_cases turn with ⟨-, heq⟩ | ⟨h', -⟩ | ⟨-, -, heq⟩ | ⟨-, _, -, heq⟩ | ⟨-, heq⟩
    · rw [heq]
      exact hpoll
    · exact absurd h' htask
    · rw [heq]
      exact hpoll
    · rw [heq]
      exact ⟨hpoll.periodMs, hpoll.next⟩
    · rw [heq]
      exact hpoll.same (sameDeadlines_completeFinger _ _ _).1

lemma Reported.run (hp : 0 < period) (h : Reported first period s l)
    (htimed : s.Timed clock turns) :
    Reported first period (s.run turns) (l ++ s.intents turns) := by
  induction turns generalizing s clock l with
  | nil =>
    rw [intents, List.append_nil]
    exact h
  | cons turn turns ih =>
    obtain ⟨-, hnow, hfar, hrest⟩ := htimed
    rw [intents, ← List.append_assoc]
    exact ih (h.step hp (hnow.trans_lt hfar) hfar).1 hrest

/-- A deadline before the one a schedule waits for was reported. -/
lemma Reported.of_lt (h : Reported first period s l) {k : ℕ}
    (hk : first + k * period < s.nextRepairMs) : ∃ τ ∈ l, first + k * period ≤ τ := by
  obtain ⟨j, hj, hreported⟩ := h.next
  refine hreported k ?_
  by_contra hle
  have hmul := Nat.mul_le_mul_right period (not_lt.1 hle)
  omega

lemma eq_of_mem_intentAt {τ : ℕ} (h : τ ∈ s.intentAt t) : τ = t := by
  rw [intentAt] at h
  split at h
  · exact List.mem_singleton.1 h
  · cases h

lemma le_lastInstant_of_intents (hnow : turn.now ≤ s.lastInstant turn) {τ : ℕ}
    (hτ : τ ∈ (s.step turn).1) : τ ≤ s.lastInstant turn := by
  by_cases htask : s.taskOf turn = some .stabilize
  · rw [step_intents_stabilize htask, List.mem_append] at hτ
    rcases hτ with hτ | hτ
    · rw [eq_of_mem_intentAt hτ]
      exact hnow
    · rw [eq_of_mem_intentAt hτ, lastInstant_of_task htask]
  · rw [step_intents htask] at hτ
    rw [eq_of_mem_intentAt hτ]
    exact hnow

lemma mem_step_of_mem_intentAt {τ : ℕ} (hτ : τ ∈ s.intentAt turn.now) : τ ∈ (s.step turn).1 := by
  by_cases htask : s.taskOf turn = some .stabilize
  · rw [step_intents_stabilize htask]
    exact List.mem_append_left _ hτ
  · rw [step_intents htask]
    exact hτ

lemma clock_le_clockAfter (htimed : s.Timed clock turns) : clock ≤ s.clockAfter clock turns := by
  induction turns generalizing s clock with
  | nil => exact le_rfl
  | cons turn turns ih =>
    obtain ⟨hclock, hnow, -, hrest⟩ := htimed
    exact (hclock.trans hnow).trans (ih hrest)

lemma intents_le_clockAfter (htimed : s.Timed clock turns) :
    ∀ τ ∈ s.intents turns, τ ≤ s.clockAfter clock turns := by
  induction turns generalizing s clock with
  | nil => exact fun τ hτ => by cases hτ
  | cons turn turns ih =>
    obtain ⟨-, hnow, -, hrest⟩ := htimed
    intro τ hτ
    rw [intents, List.mem_append] at hτ
    rcases hτ with hτ | hτ
    · exact (le_lastInstant_of_intents hnow hτ).trans (clock_le_clockAfter hrest)
    · exact ih hrest τ hτ

/-- **Every passed deadline becomes an intent** at the first poll behind it, or before. -/
lemma Reported.poll_run (hp : 0 < period) (h : Reported first period s [])
    (htimed : s.Timed clock (turns ++ [turn])) {k : ℕ} (hk : first + k * period ≤ turn.now) :
    ∃ τ ∈ s.intents (turns ++ [turn]), first + k * period ≤ τ ∧ τ ≤ turn.now := by
  obtain ⟨hbefore, hclock, hnow, hfar, -⟩ := timed_append.1 htimed
  have hrun := h.run hp hbefore
  rw [List.nil_append] at hrun
  obtain ⟨hpoll, hlt⟩ := @Reported.poll _ turn.now turn.pending turn.status _ _ _ hp hrun
    (hnow.trans_lt hfar)
  obtain ⟨τ, hτ, hle⟩ := hpoll.of_lt (hk.trans_lt hlt)
  rw [List.mem_append] at hτ
  refine ⟨τ, ?_, hle, ?_⟩
  · rw [intents_append, List.mem_append]
    refine hτ.imp id fun hτ => ?_
    rw [intents, List.mem_append]
    exact Or.inl (mem_step_of_mem_intentAt hτ)
  · rcases hτ with hτ | hτ
    · exact (intents_le_clockAfter hbefore τ hτ).trans hclock
    · exact (eq_of_mem_intentAt hτ).le

/-- A deadline that passes during a stabilization becomes an intent when it completes. -/
lemma Reported.completion_run (hp : 0 < period) (h : Reported first period s [])
    (htimed : s.Timed clock (turns ++ [turn]))
    (htask : (s.run turns).taskOf turn = some .stabilize) {k : ℕ}
    (hk : first + k * period ≤ turn.completedAt) :
    ∃ τ ∈ s.intents (turns ++ [turn]), first + k * period ≤ τ ∧ τ ≤ turn.completedAt := by
  obtain ⟨hbefore, hclock, hnow, hfar, -⟩ := timed_append.1 htimed
  have hrun := h.run hp hbefore
  rw [List.nil_append] at hrun
  obtain ⟨hstep, hlt⟩ := hrun.step hp (hnow.trans_lt hfar) hfar
  obtain ⟨τ, hτ, hkτ⟩ := hstep.of_lt (hk.trans_lt (hlt htask))
  refine ⟨τ, ?_, hkτ, ?_⟩
  · rw [intents_append, intents, intents, List.append_nil]
    exact hτ
  · rw [← lastInstant_of_task htask]
    rcases List.mem_append.1 hτ with hτ | hτ
    · exact (intents_le_clockAfter hbefore τ hτ).trans (hclock.trans hnow)
    · exact le_lastInstant_of_intents hnow hτ

/-! ### The laws -/

lemma timed_between {before mid : List Turn} {x y : Turn} (h : s.Good)
    (htimed : s.Timed clock (before ++ x :: mid ++ [y])) :
    (s.run before).Good ∧ Far ((s.run before).lastInstant x) ∧
      (∃ clock', ((s.run before).step x).2.Timed clock' mid) ∧
      s.run (before ++ x :: mid) = ((s.run before).step x).2.run mid := by
  obtain ⟨hxmid, -⟩ := timed_append.1 htimed
  obtain ⟨hbefore, -, -, hfar, hmid⟩ := timed_append.1 hxmid
  exact ⟨h.run hbefore, hfar, ⟨_, hmid⟩, run_append _ _ _⟩

/-- After a stabilization that left a repair pending, the repair comes before the next
stabilization. -/
lemma repairs_between {before mid : List Turn} {x y : Turn} (h : s.Good)
    (htimed : s.Timed clock (before ++ x :: mid ++ [y]))
    (hx : (s.run before).taskOf x = some .stabilize)
    (hreserve : x.pendingAfter = true ∨
      ((s.run before).poll x.now x.pending x.status).1.nextRepairMs ≤ x.completedAt)
    (hpending : ∀ z ∈ mid ++ [y], z.pending = true)
    (hy : (s.run (before ++ x :: mid)).taskOf y = some .stabilize) :
    ((s.run before).step x).2.Repairs mid := by
  obtain ⟨hgood, hfar, ⟨clock', hmid⟩, hrun⟩ := timed_between h htimed
  rw [hrun] at hy
  by_contra hrepairs
  have hkept := reserved_run (hgood.step hfar) hmid (reserved_of_stabilize hx hreserve)
    (fun z hz => hpending z (List.mem_append_left _ hz)) hrepairs
  have hlast := hpending y (List.mem_append_right _ List.mem_cons_self)
  have hnot : (((s.run before).step x).2.run mid).taskOf y ≠ some .repair := by
    rw [hy]
    simp
  exact (reserved_step ((hgood.step hfar).run hmid) hkept hlast hnot).1 hy

lemma stabilize_after {before mid : List Turn} {x y : Turn} (h : s.Good)
    (htimed : s.Timed clock (before ++ x :: mid ++ [y]))
    (hy : (s.run (before ++ x :: mid)).taskOf y = some .stabilize) :
    ((s.run before).taskOf x = some .stabilize → x.completedAt + 1 ≤ y.now) ∧
    ((s.run before).taskOf x = some .repair → x.outcome ≠ none →
      x.completedAt + maintenanceQuietGap ≤ y.now) := by
  obtain ⟨hgood, hfar, ⟨clock', hmid⟩, hrun⟩ := timed_between h htimed
  rw [hrun] at hy
  have hmono := nextStabilizeMs_le_run (hgood.step hfar) hmid
  have hdue := (of_stabilize hy).1
  refine ⟨fun hx => ?_, fun hx houtcome => ?_⟩
  · rw [lastInstant_of_task hx] at hfar
    exact (lt_nextStabilizeMs_of_stabilize hx hfar).trans_le (hmono.trans hdue)
  · rw [lastInstant_of_task hx] at hfar
    exact (le_nextStabilizeMs_of_repair hx houtcome hfar).trans (hmono.trans hdue)

/-- **The schedule is fair and neither spins nor misses work**, in every run of the loop. -/
theorem maintenance_fair (now interval : ℕ) (local_ : Did) (entropy : Uuid) :
    let s := new now interval local_ entropy
    -- a poll that selects nothing wakes later, and polls before the wake select nothing either
    (∀ turns t pending status, s.Timed now turns → s.clockAfter now turns ≤ t → Far t →
      (s.run turns).taskAt t pending status = none →
      let s' := ((s.run turns).poll t pending status).1
      ∀ pending', (pending' = true → (s.run turns).effectivePending t pending = true) →
        t < s'.nextWakeMs t pending' status.mayAdvance ∧
        ∀ later, (t :: later).Pairwise (· ≤ ·) →
          (∀ t' ∈ later, t' < s'.nextWakeMs t pending' status.mayAdvance) →
          s'.Silent t pending' status later) ∧
    -- a repair pending when a stabilization completes is selected before the next one
    (∀ before x mid y, s.Timed now (before ++ x :: mid ++ [y]) →
      (s.run before).taskOf x = some .stabilize →
      (x.pendingAfter = true ∨
        ((s.run before).poll x.now x.pending x.status).1.nextRepairMs ≤ x.completedAt) →
      (∀ z ∈ mid ++ [y], z.pending = true) →
      (s.run (before ++ x :: mid)).taskOf y = some .stabilize →
      ((s.run before).step x).2.Repairs mid) ∧
    -- a due finger turn yields to few other tasks
    (∀ before mid, s.Timed now (before ++ mid) → (s.run before).Yields mid →
      mid.length ≤ maxFingerPriorityDeferrals) ∧
    -- a stabilization comes after the last one, and after the quiet gap of a repair
    (∀ before x mid y, s.Timed now (before ++ x :: mid ++ [y]) →
      (s.run (before ++ x :: mid)).taskOf y = some .stabilize →
      ((s.run before).taskOf x = some .stabilize → x.completedAt + 1 ≤ y.now) ∧
      ((s.run before).taskOf x = some .repair → x.outcome ≠ none →
        x.completedAt + maintenanceQuietGap ≤ y.now)) ∧
    -- every periodic repair deadline that passes becomes an intent
    ∀ before y k, s.Timed now (before ++ [y]) →
      (s.nextRepairMs + k * s.periodMs ≤ y.now → ∃ τ ∈ s.intents (before ++ [y]),
        s.nextRepairMs + k * s.periodMs ≤ τ ∧ τ ≤ y.now) ∧
      ((s.run before).taskOf y = some .stabilize →
        s.nextRepairMs + k * s.periodMs ≤ y.completedAt → ∃ τ ∈ s.intents (before ++ [y]),
          s.nextRepairMs + k * s.periodMs ≤ τ ∧ τ ≤ y.completedAt) := by
  intro s
  have hgood : s.Good := good_new now interval local_ entropy
  have hperiod : 0 < s.periodMs := lt_of_lt_of_le (by decide) (le_max_right _ 2)
  have hreported : Reported s.nextRepairMs s.periodMs s [] := by
    refine ⟨rfl, 0, ?_, fun i hi => absurd hi (Nat.not_lt_zero i)⟩
    rw [Nat.zero_mul, Nat.add_zero]
    exact (min_eq_left (min_le_right _ _)).symm
  refine ⟨?_,
    fun before x mid y htimed hx hreserve hpending hy =>
      repairs_between hgood htimed hx hreserve hpending hy,
    fun before mid htimed hyields => ?_,
    fun before x mid y htimed hy => stabilize_after hgood htimed hy,
    fun before y k htimed => ⟨fun hk => hreported.poll_run hperiod htimed hk,
      fun htask hk => hreported.completion_run hperiod htimed htask hk⟩⟩
  · intro turns t pending status htimed _ ht hnone s' pending' hpending
    have hquiet := quiet_of_none (hgood.run htimed) ht hnone hpending
    exact ⟨hquiet.lt_wake, fun later hsorted hwake => hquiet.silent hsorted hwake⟩
  · obtain ⟨hbefore, hmid⟩ := timed_append.1 htimed
    have := length_of_yields (hgood.run hbefore) hmid hyields
    omega

/-- The first stabilization of a period of fifteen seconds leaves a pending repair its turn. -/
example : let s := new 0 15000 0 0
    let turn : Turn := ⟨15000, true, ⟨.dormant, 0⟩, 21000, true, some true, ⟨.dormant, 0⟩⟩
    s.taskOf turn = some .stabilize ∧
      (s.step turn).2.taskAt 27000 true ⟨.dormant, 0⟩ = some .repair := by
  decide +kernel

end MaintenanceSchedule

end Rings
