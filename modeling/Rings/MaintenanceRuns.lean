import Rings.MaintenanceSchedule

/-!
Runs of the maintenance loop.

A turn is a poll and the completion of the task it selected. One lemma says what a poll does to
each deadline and another what a completion does; every law of the schedule is an invariant of
turns read off these two.
-/

namespace Rings

namespace MaintenanceSchedule

variable {s s' s'' : MaintenanceSchedule} {t c : ℕ} {pending : Bool}
  {status : FingerConvergenceStatus}

/-! ### What pacing leaves alone -/

/-- The deadlines of topology and storage are those of another schedule. -/
structure SameDeadlines (s s' : MaintenanceSchedule) : Prop where
  periodMs : s'.periodMs = s.periodMs
  nextStabilizeMs : s'.nextStabilizeMs = s.nextStabilizeMs
  nextRepairMs : s'.nextRepairMs = s.nextRepairMs
  repairNotBeforeMs : s'.repairNotBeforeMs = s.repairNotBeforeMs
  budget : s'.repairAdmissionBudgetMs = s.repairAdmissionBudgetMs
  reserved : s'.repairTurnReserved = s.repairTurnReserved

lemma SameDeadlines.trans (h : SameDeadlines s s') (h' : SameDeadlines s' s'') :
    SameDeadlines s s'' :=
  ⟨h'.periodMs.trans h.periodMs, h'.nextStabilizeMs.trans h.nextStabilizeMs,
    h'.nextRepairMs.trans h.nextRepairMs, h'.repairNotBeforeMs.trans h.repairNotBeforeMs,
    h'.budget.trans h.budget, h'.reserved.trans h.reserved⟩

lemma sameDeadlines_reconcile : SameDeadlines s (s.reconcileFingerStatus t status) := by
  rw [reconcileFingerStatus]
  dsimp only
  cases status.phase with
  | runnable =>
    dsimp only
    split
    · split <;> exact ⟨rfl, rfl, rfl, rfl, rfl, rfl⟩
    · split <;> exact ⟨rfl, rfl, rfl, rfl, rfl, rfl⟩
  | _ => exact ⟨rfl, rfl, rfl, rfl, rfl, rfl⟩

lemma sameDeadlines_rephase {gap : ℕ} :
    SameDeadlines s (s.rephaseStaleFingerDeadline t gap status) := by
  rw [rephaseStaleFingerDeadline]
  dsimp only
  split <;> exact ⟨rfl, rfl, rfl, rfl, rfl, rfl⟩

def reconciled (s : MaintenanceSchedule) (t : ℕ) (status : FingerConvergenceStatus) :
    MaintenanceSchedule :=
  (({ s with lastObservedMs := max s.lastObservedMs t } :
    MaintenanceSchedule).reconcileFingerStatus t status).rephaseStaleFingerDeadline t
      (t - s.lastObservedMs) status

lemma sameDeadlines_reconciled : SameDeadlines s (s.reconciled t status) := by
  have hobserved : SameDeadlines s { s with lastObservedMs := max s.lastObservedMs t } :=
    ⟨rfl, rfl, rfl, rfl, rfl, rfl⟩
  exact hobserved.trans (sameDeadlines_reconcile.trans sameDeadlines_rephase)

/-! ### What a poll does -/

/-- A poll behind the reconciliation of the finger deadline. -/
def pollReconciled (s : MaintenanceSchedule) (t : ℕ) (pending : Bool)
    (status : FingerConvergenceStatus) : MaintenanceSchedule × MaintenanceDecision :=
  let (due, s) := s.advanceRepairDeadlineIfDue t
  let s := { s with repairTurnReserved := s.repairTurnReserved && (pending || due) }
  let ready := status.mayAdvance && decide (s.nextFingerMs ≤ t)
  let task := s.selectTask t (pending || due) ready
  let s := { s with fingerPriorityDeferrals := s.deferralsAfter ready task }
  (s, ⟨task, due, (pending || due) && !s.repairTurnReserved &&
    !decide (s.nextStabilizeMs ≤ t) && !s.hasStorageRepairWindow t⟩)

def effectivePending (s : MaintenanceSchedule) (t : ℕ) (pending : Bool) : Bool :=
  pending || decide (s.nextRepairMs ≤ t)

def fingerReady (s : MaintenanceSchedule) (t : ℕ) (status : FingerConvergenceStatus) : Bool :=
  status.mayAdvance && decide ((s.reconciled t status).nextFingerMs ≤ t)

/-- A poll keeps the deadlines of topology and storage but for an elapsed periodic repair, and
drops a reservation without a repair pending; `r` is the schedule with its finger deadline
reconciled. -/
structure Polled (s r : MaintenanceSchedule) (t : ℕ) (pending ready : Bool)
    (s' : MaintenanceSchedule) (d : MaintenanceDecision) : Prop where
  periodMs : s'.periodMs = s.periodMs
  nextStabilizeMs : s'.nextStabilizeMs = s.nextStabilizeMs
  nextRepairMs : s'.nextRepairMs =
    if t < s.nextRepairMs then s.nextRepairMs
    else nextDeadlineAfter s.nextRepairMs s.periodMs t
  repairNotBeforeMs : s'.repairNotBeforeMs = s.repairNotBeforeMs
  budget : s'.repairAdmissionBudgetMs = s.repairAdmissionBudgetMs
  reserved : s'.repairTurnReserved = (s.repairTurnReserved && s.effectivePending t pending)
  nextFingerMs : s'.nextFingerMs = r.nextFingerMs
  fingerPhase : s'.fingerPhaseLastPoll = r.fingerPhaseLastPoll
  fingerStreak : s'.fingerFailureStreak = r.fingerFailureStreak
  periodicRepairDue : d.periodicRepairDue = decide (s.nextRepairMs ≤ t)
  task : d.task =
    if ready = true ∧ maxFingerPriorityDeferrals ≤ r.fingerPriorityDeferrals then
      some .convergeFingers
    else if s.reservedRepairReady t (s.effectivePending t pending) then some .repair
    else if s.nextStabilizeMs ≤ t then some .stabilize
    else if s.effectivePending t pending && s.canStartStorageRepair t then some .repair
    else if ready then some .convergeFingers
    else none
  deferrals : s'.fingerPriorityDeferrals = r.deferralsAfter ready d.task

lemma selectTask_same {r : MaintenanceSchedule} (h : SameDeadlines s r) (p ready : Bool)
    (m : ℕ) : ({ r with
        nextRepairMs := m
        repairTurnReserved := r.repairTurnReserved && p } : MaintenanceSchedule).selectTask t p
          ready =
      if ready = true ∧ maxFingerPriorityDeferrals ≤ r.fingerPriorityDeferrals then
        some .convergeFingers
      else if s.reservedRepairReady t p then some .repair
      else if s.nextStabilizeMs ≤ t then some .stabilize
      else if p && s.canStartStorageRepair t then some .repair
      else if ready then some .convergeFingers
      else none := by
  obtain ⟨-, hstabilize, -, hnotBefore, hbudget, hreserved⟩ := h
  rcases r with ⟨_, _, stabilize, _, notBefore, budget, reserved, _, _, _, _, _⟩
  subst hstabilize hnotBefore hbudget hreserved
  rw [selectTask]
  cases p with
  | false =>
    simp only [reservedRepairReady, Bool.and_false, Bool.false_and]
  | true =>
    simp only [reservedRepairReady, Bool.and_true]
    rfl

lemma polled (s : MaintenanceSchedule) (t : ℕ) (pending : Bool)
    (status : FingerConvergenceStatus) :
    Polled s (s.reconciled t status) t pending (s.fingerReady t status)
      (s.poll t pending status).1 (s.poll t pending status).2 := by
  have hsame := @sameDeadlines_reconciled s t status
  have hready : s.fingerReady t status =
      (status.mayAdvance && decide ((s.reconciled t status).nextFingerMs ≤ t)) := rfl
  have hpoll : s.poll t pending status =
      pollReconciled (s.reconciled t status) t pending status := rfl
  rw [hpoll, hready]
  generalize s.reconciled t status = r at hsame
  have htask := fun p m => @selectTask_same s t r hsame p
    (status.mayAdvance && decide (r.nextFingerMs ≤ t)) m
  obtain ⟨hperiod, hstabilize, hrepair, hnotBefore, hbudget, hreserved⟩ := hsame
  by_cases hdue : t < r.nextRepairMs
  · have heff : s.effectivePending t pending = pending := by
      simp [effectivePending, ← hrepair, hdue]
    have hadvance : r.advanceRepairDeadlineIfDue t = (false, r) := if_pos hdue
    simp only [pollReconciled, hadvance, Bool.or_false]
    refine ⟨hperiod, hstabilize, ?_, hnotBefore, hbudget, ?_, rfl, rfl, rfl, ?_, ?_, rfl⟩
    · rw [← hrepair, if_pos hdue]
    · rw [heff, ← hreserved]
    · rw [← hrepair, decide_eq_false (not_le.2 hdue)]
    · rw [heff]
      exact htask pending r.nextRepairMs
  · have hle : s.nextRepairMs ≤ t := by rw [← hrepair]; exact not_lt.1 hdue
    have heff : s.effectivePending t pending = true := by
      simp [effectivePending, hle]
    have hadvance : r.advanceRepairDeadlineIfDue t =
        (true, { r with nextRepairMs := nextDeadlineAfter r.nextRepairMs r.periodMs t }) :=
      if_neg hdue
    simp only [pollReconciled, hadvance, Bool.or_true]
    refine ⟨hperiod, hstabilize, ?_, hnotBefore, hbudget, ?_, rfl, rfl, rfl, ?_, ?_, rfl⟩
    · rw [← hrepair, if_neg hdue, hperiod]
    · rw [heff, ← hreserved]
    · rw [decide_eq_true hle]
    · rw [heff]
      exact htask true _

/-- A poll moves no repair window. -/
lemma Polled.canStart {r : MaintenanceSchedule} {ready : Bool} {d : MaintenanceDecision}
    (h : Polled s r t pending ready s' d) (now : ℕ) :
    s'.canStartStorageRepair now = s.canStartStorageRepair now ∧
      s'.hasStorageRepairWindow now = s.hasStorageRepairWindow now := by
  have hwindow : s'.hasStorageRepairWindow now = s.hasStorageRepairWindow now := by
    rw [hasStorageRepairWindow, hasStorageRepairWindow, requiredRepairWindowMs,
      requiredRepairWindowMs, storageRepairWindowMs, storageRepairWindowMs, h.budget,
      h.nextStabilizeMs]
  refine ⟨?_, hwindow⟩
  rw [canStartStorageRepair, canStartStorageRepair, hwindow, h.repairNotBeforeMs]

/-! ### What a completion does -/

lemma lt_nextDeadlineAfter {deadline period now : ℕ} (h : now < u64Max) :
    now < nextDeadlineAfter deadline period now := by
  rw [nextDeadlineAfter]
  split
  · exact h
  · omega

lemma le_nextDeadlineAfter {deadline period now : ℕ} (h : deadline ≤ u64Max) :
    deadline ≤ nextDeadlineAfter deadline period now := by
  rw [nextDeadlineAfter]
  split
  · exact h
  · simp only [saturatingAdd]
    omega

lemma nextDeadlineAfter_le {deadline period now : ℕ} :
    nextDeadlineAfter deadline period now ≤ u64Max := by
  rw [nextDeadlineAfter]
  split
  · exact le_rfl
  · exact min_le_right _ _

/-- The end of a stabilization. -/
structure Stabilized (s : MaintenanceSchedule) (c : ℕ) (pending : Bool) (due : Bool)
    (s' : MaintenanceSchedule) : Prop where
  periodMs : s'.periodMs = s.periodMs
  budget : s'.repairAdmissionBudgetMs = s.repairAdmissionBudgetMs
  due_eq : due = decide (s.nextRepairMs ≤ c)
  nextRepairMs : s'.nextRepairMs =
    if c < s.nextRepairMs then s.nextRepairMs
    else nextDeadlineAfter s.nextRepairMs s.periodMs c
  reserved : s'.repairTurnReserved = (pending || due)
  repairNotBeforeMs : s'.repairNotBeforeMs = saturatingAdd u64Max c maintenanceQuietGap
  nextStabilizeMs : s'.nextStabilizeMs =
    if s'.repairTurnReserved then
      max (nextDeadlineAfter s.nextStabilizeMs s.periodMs c)
        (saturatingAdd u64Max s'.repairNotBeforeMs s.requiredRepairWindowMs)
    else nextDeadlineAfter s.nextStabilizeMs s.periodMs c
  deferrals : s'.fingerPriorityDeferrals = s.fingerPriorityDeferrals

lemma stabilized (s : MaintenanceSchedule) (c : ℕ) (pending : Bool) :
    Stabilized s c pending (s.completeStabilization c pending).1
      (s.completeStabilization c pending).2 := by
  by_cases hdue : c < s.nextRepairMs
  · have hfalse : decide (s.nextRepairMs ≤ c) = false := decide_eq_false (not_le.2 hdue)
    cases pending <;>
      refine ⟨?_, ?_, ?_, ?_, ?_, ?_, ?_, ?_⟩ <;>
      simp [completeStabilization, advanceRepairDeadlineIfDue, hdue, requiredRepairWindowMs]
  · have htrue : s.nextRepairMs ≤ c := not_lt.1 hdue
    refine ⟨?_, ?_, ?_, ?_, ?_, ?_, ?_, ?_⟩ <;>
      simp [completeStabilization, advanceRepairDeadlineIfDue, hdue, htrue,
        requiredRepairWindowMs]

/-! ### Turns -/

/-- What the loop observes in one turn: the poll, and the completion of its task. A repair whose
request another caller claimed has no outcome. -/
structure Turn where
  now : ℕ
  pending : Bool
  status : FingerConvergenceStatus
  completedAt : ℕ
  pendingAfter : Bool
  outcome : Option Bool
  statusAfter : FingerConvergenceStatus

/-- `run_maintenance_task`: the schedule after the task, and whether it created a repair
intent. -/
def runMaintenanceTask (s : MaintenanceSchedule) (task : MaintenanceTask) (turn : Turn) :
    Bool × MaintenanceSchedule :=
  match task with
  | .stabilize => s.completeStabilization turn.completedAt turn.pendingAfter
  | .repair =>
    match turn.outcome with
    | some complete => (false, s.completeRepair turn.completedAt complete)
    | none => (false, s)
  | .convergeFingers =>
    (false, s.completeFingerConvergence turn.completedAt turn.statusAfter)

def taskAt (s : MaintenanceSchedule) (t : ℕ) (pending : Bool)
    (status : FingerConvergenceStatus) : Option MaintenanceTask :=
  (s.poll t pending status).2.task

def taskOf (s : MaintenanceSchedule) (turn : Turn) : Option MaintenanceTask :=
  s.taskAt turn.now turn.pending turn.status

def step (s : MaintenanceSchedule) (turn : Turn) : List ℕ × MaintenanceSchedule :=
  let (s, decision) := s.poll turn.now turn.pending turn.status
  let polled := if decision.periodicRepairDue then [turn.now] else []
  match decision.task with
  | none => (polled, s)
  | some task =>
    let (due, s) := s.runMaintenanceTask task turn
    (polled ++ if due then [turn.completedAt] else [], s)

def lastInstant (s : MaintenanceSchedule) (turn : Turn) : ℕ :=
  if (s.taskOf turn).isSome then turn.completedAt else turn.now

def run (s : MaintenanceSchedule) : List Turn → MaintenanceSchedule
  | [] => s
  | turn :: turns => (s.step turn).2.run turns

/-- The instants at which a run created repair intents. -/
def intents (s : MaintenanceSchedule) : List Turn → List ℕ
  | [] => []
  | turn :: turns => (s.step turn).1 ++ (s.step turn).2.intents turns

def clockAfter (s : MaintenanceSchedule) (clock : ℕ) : List Turn → ℕ
  | [] => clock
  | turn :: turns => (s.step turn).2.clockAfter (s.lastInstant turn) turns

/-- An instant far from the greatest one. -/
def Far (t : ℕ) : Prop := t < 2 ^ 63

/-- The instants of a run do not decrease, tasks complete after they are selected, and all
instants are far from the greatest. -/
def Timed (s : MaintenanceSchedule) (clock : ℕ) : List Turn → Prop
  | [] => True
  | turn :: turns => clock ≤ turn.now ∧ turn.now ≤ s.lastInstant turn ∧
      Far (s.lastInstant turn) ∧ (s.step turn).2.Timed (s.lastInstant turn) turns

lemma run_append (s : MaintenanceSchedule) (l m : List Turn) :
    s.run (l ++ m) = (s.run l).run m := by
  induction l generalizing s with
  | nil => rfl
  | cons turn l ih => exact ih _

lemma intents_append (s : MaintenanceSchedule) (l m : List Turn) :
    s.intents (l ++ m) = s.intents l ++ (s.run l).intents m := by
  induction l generalizing s with
  | nil => rfl
  | cons turn l ih =>
    rw [List.cons_append, intents, ih, intents, run, List.append_assoc]

lemma timed_append {clock : ℕ} {l m : List Turn} : s.Timed clock (l ++ m) ↔
    s.Timed clock l ∧ (s.run l).Timed (s.clockAfter clock l) m := by
  induction l generalizing s clock with
  | nil => simp [Timed, run, clockAfter]
  | cons turn l ih =>
    rw [List.cons_append, Timed, Timed, run, clockAfter, ih]
    simp only [and_assoc]

lemma Far.lt (h : Far t) : t < u64Max := h.trans (by decide)

lemma Far.saturatingAdd (h : Far t) {d : ℕ} (hd : d ≤ 10000) :
    saturatingAdd u64Max t d = t + d := by
  have hmax : 2 ^ 63 + 10000 ≤ u64Max := by decide
  simp only [Far] at h
  rw [Rings.saturatingAdd]
  omega

/-- What a turn does, by the task its poll selects. -/
lemma step_cases (s : MaintenanceSchedule) (turn : Turn) :
    let polled := (s.poll turn.now turn.pending turn.status).1
    s.taskOf turn = none ∧ (s.step turn).2 = polled ∨
    s.taskOf turn = some .stabilize ∧
      (s.step turn).2 = (polled.completeStabilization turn.completedAt turn.pendingAfter).2 ∨
    s.taskOf turn = some .repair ∧ turn.outcome = none ∧ (s.step turn).2 = polled ∨
    s.taskOf turn = some .repair ∧ (∃ complete, turn.outcome = some complete ∧
      (s.step turn).2 = polled.completeRepair turn.completedAt complete) ∨
    s.taskOf turn = some .convergeFingers ∧
      (s.step turn).2 = polled.completeFingerConvergence turn.completedAt turn.statusAfter := by
  intro polled
  rw [taskOf, taskAt, step]
  dsimp only
  cases (s.poll turn.now turn.pending turn.status).2.task with
  | none => exact Or.inl ⟨rfl, rfl⟩
  | some task =>
    cases task with
    | stabilize => exact Or.inr (Or.inl ⟨rfl, rfl⟩)
    | repair =>
      cases houtcome : turn.outcome with
      | none =>
        refine Or.inr (Or.inr (Or.inl ⟨rfl, rfl, ?_⟩))
        simp only [runMaintenanceTask, houtcome, polled]
      | some complete =>
        refine Or.inr (Or.inr (Or.inr (Or.inl ⟨rfl, complete, rfl, ?_⟩)))
        simp only [runMaintenanceTask, houtcome, polled]
    | convergeFingers => exact Or.inr (Or.inr (Or.inr (Or.inr ⟨rfl, rfl⟩)))

/-! ### The invariant -/

/-- A reserved repair turn fits before the next stabilization, and a due finger turn yields a
bounded number of times. -/
structure Good (s : MaintenanceSchedule) : Prop where
  budget : s.requiredRepairWindowMs = storageRepairAdmissionBudget + maintenanceQuietGap
  stabilize_le : s.nextStabilizeMs ≤ u64Max
  window : s.repairTurnReserved = true →
    s.repairNotBeforeMs + s.requiredRepairWindowMs ≤ s.nextStabilizeMs
  deferrals : s.fingerPriorityDeferrals ≤ maxFingerPriorityDeferrals

lemma good_new (now interval : ℕ) (local_ : Did) (entropy : Uuid) :
    (new now interval local_ entropy).Good :=
  ⟨(by decide : saturatingAdd u64Max 5000 50 = 5000 + 50), min_le_right _ _,
    fun h => absurd h Bool.false_ne_true, Nat.zero_le _⟩

lemma deferrals_reconcile :
    (s.reconcileFingerStatus t status).fingerPriorityDeferrals = s.fingerPriorityDeferrals := by
  rw [reconcileFingerStatus]
  dsimp only
  cases status.phase with
  | runnable =>
    dsimp only
    split
    · split <;> rfl
    · split <;> rfl
  | _ => rfl

lemma le_initialDelay : 1000 ≤ s.nextInitialFingerDelayMs.1 := by
  have hfloor : fingerLookupBackoffMs 0 = 1000 := by decide
  have hmax : 1000 ≤ u64Max := by decide
  rw [nextInitialFingerDelayMs]
  simp only [hfloor, saturatingAdd]
  omega

/-- Rephasing forgets the yields of a finger turn that is due no more. -/
lemma deferrals_reconciled (s : MaintenanceSchedule) (t : ℕ) (status : FingerConvergenceStatus) :
    (s.reconciled t status).fingerPriorityDeferrals = s.fingerPriorityDeferrals ∨
    (s.reconciled t status).fingerPriorityDeferrals = 0 ∧
      (t < u64Max → t < (s.reconciled t status).nextFingerMs) := by
  rw [reconciled, rephaseStaleFingerDeadline]
  dsimp only
  split
  · refine Or.inr ⟨rfl, fun ht => ?_⟩
    refine lt_min ?_ ht
    exact Nat.lt_add_of_pos_right (lt_of_lt_of_le (by decide) le_initialDelay)
  · exact Or.inl deferrals_reconcile

lemma deferrals_poll_le (h : s.fingerPriorityDeferrals ≤ maxFingerPriorityDeferrals) :
    (s.poll t pending status).1.fingerPriorityDeferrals ≤ maxFingerPriorityDeferrals := by
  have hpolled := s.polled t pending status
  rw [hpolled.deferrals]
  have hr : (s.reconciled t status).fingerPriorityDeferrals ≤ maxFingerPriorityDeferrals := by
    rcases s.deferrals_reconciled t status with heq | ⟨hzero, -⟩
    · rw [heq]
      exact h
    · rw [hzero]
      exact Nat.zero_le _
  have htask := hpolled.task
  revert htask
  cases s.fingerReady t status with
  | false =>
    intro _
    cases (s.poll t pending status).2.task with
    | none => exact Nat.zero_le _
    | some task => cases task <;> exact Nat.zero_le _
  | true =>
    intro htask
    cases hd : (s.poll t pending status).2.task with
    | none => exact hr
    | some task =>
      rw [hd] at htask
      by_cases hmany :
          maxFingerPriorityDeferrals ≤ (s.reconciled t status).fingerPriorityDeferrals
      · rw [if_pos ⟨rfl, hmany⟩] at htask
        cases htask
        exact Nat.zero_le _
      · cases task with
        | convergeFingers => exact Nat.zero_le _
        | _ => exact (min_le_left _ _).trans (not_le.1 hmany)

lemma Good.poll (h : s.Good) : (s.poll t pending status).1.Good := by
  have hpolled := s.polled t pending status
  have hwindow : (s.poll t pending status).1.requiredRepairWindowMs =
      s.requiredRepairWindowMs := by
    rw [requiredRepairWindowMs, requiredRepairWindowMs, hpolled.budget]
  refine ⟨hwindow.trans h.budget, ?_, fun hreserved => ?_, deferrals_poll_le h.deferrals⟩
  · rw [hpolled.nextStabilizeMs]
    exact h.stabilize_le
  · rw [hpolled.reserved, Bool.and_eq_true] at hreserved
    rw [hwindow, hpolled.repairNotBeforeMs, hpolled.nextStabilizeMs]
    exact h.window hreserved.1

lemma Good.completeStabilization (h : s.Good) (hc : Far c) :
    (s.completeStabilization c pending).2.Good := by
  have hdone := s.stabilized c pending
  have hwindow : (s.completeStabilization c pending).2.requiredRepairWindowMs =
      s.requiredRepairWindowMs := by
    rw [requiredRepairWindowMs, requiredRepairWindowMs, hdone.budget]
  have hrequired : s.requiredRepairWindowMs = 5050 := h.budget
  have hgap : (s.completeStabilization c pending).2.repairNotBeforeMs = c + 50 := by
    rw [hdone.repairNotBeforeMs]
    exact hc.saturatingAdd (by decide)
  refine ⟨hwindow.trans h.budget, ?_, fun hreserved => ?_, ?_⟩
  · rw [hdone.nextStabilizeMs]
    split
    · exact max_le nextDeadlineAfter_le (min_le_right _ _)
    · exact nextDeadlineAfter_le
  · rw [hwindow, hdone.nextStabilizeMs, if_pos hreserved, hgap, hrequired]
    refine le_max_of_le_right ?_
    have hmax : 2 ^ 63 + 10000 ≤ u64Max := by decide
    simp only [Far] at hc
    rw [saturatingAdd]
    omega
  · rw [hdone.deferrals]
    exact h.deferrals

lemma Good.completeRepair (h : s.Good) {complete : Bool} : (s.completeRepair c complete).Good :=
  ⟨h.budget, max_le h.stabilize_le (min_le_right _ _),
    fun hreserved => absurd hreserved Bool.false_ne_true, h.deferrals⟩

lemma sameDeadlines_completeFinger (s : MaintenanceSchedule) (c : ℕ)
    (status : FingerConvergenceStatus) : SameDeadlines s (s.completeFingerConvergence c status) ∧
      (s.completeFingerConvergence c status).fingerPriorityDeferrals =
        s.fingerPriorityDeferrals := by
  rw [completeFingerConvergence]
  dsimp only
  cases status.phase with
  | _ => exact ⟨⟨rfl, rfl, rfl, rfl, rfl, rfl⟩, rfl⟩

lemma Good.same (h : s.Good) (hsame : SameDeadlines s s')
    (hdeferrals : s'.fingerPriorityDeferrals = s.fingerPriorityDeferrals) : s'.Good := by
  have hwindow : s'.requiredRepairWindowMs = s.requiredRepairWindowMs := by
    rw [requiredRepairWindowMs, requiredRepairWindowMs, hsame.budget]
  refine ⟨hwindow.trans h.budget, ?_, fun hreserved => ?_, hdeferrals.trans_le h.deferrals⟩
  · rw [hsame.nextStabilizeMs]
    exact h.stabilize_le
  · rw [hwindow, hsame.repairNotBeforeMs, hsame.nextStabilizeMs]
    exact h.window (hsame.reserved ▸ hreserved)

lemma lastInstant_of_task {turn : Turn} {task : MaintenanceTask}
    (h : s.taskOf turn = some task) : s.lastInstant turn = turn.completedAt := by
  rw [lastInstant, h]
  rfl

lemma Good.step {turn : Turn} (h : s.Good) (hfar : Far (s.lastInstant turn)) :
    (s.step turn).2.Good := by
  rcases s.step_cases turn with ⟨-, heq⟩ | ⟨htask, heq⟩ | ⟨-, -, heq⟩ | ⟨-, _, -, heq⟩ | ⟨-, heq⟩
  · rw [heq]
    exact h.poll
  · rw [lastInstant_of_task htask] at hfar
    rw [heq]
    exact h.poll.completeStabilization hfar
  · rw [heq]
    exact h.poll
  · rw [heq]
    exact h.poll.completeRepair
  · rw [heq]
    obtain ⟨hsame, hdeferrals⟩ := sameDeadlines_completeFinger
      (s.poll turn.now turn.pending turn.status).1 turn.completedAt turn.statusAfter
    exact h.poll.same hsame hdeferrals

lemma Good.run {clock : ℕ} {turns : List Turn} (h : s.Good) (htimed : s.Timed clock turns) :
    (s.run turns).Good := by
  induction turns generalizing s clock with
  | nil => exact h
  | cons turn turns ih =>
    obtain ⟨-, -, hfar, hrest⟩ := htimed
    exact ih (h.step hfar) hrest

end MaintenanceSchedule

end Rings
