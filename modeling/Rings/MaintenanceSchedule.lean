import Rings.FingerConvergence

/-!
The timed maintenance of a node: topology stabilization, storage repair and finger convergence
share one serial loop.

A poll at an instant selects at most one task, and the completion of the task rewrites the
deadlines: stabilization returns to its period and reserves the next turn for a pending repair,
a repair keeps a quiet gap before the next stabilization, and a finger turn is paced by its lease
or by a jittered retry. Between polls that select nothing the loop sleeps until the next wake.
-/

namespace Rings

/-- The scheduler phase of finger convergence. -/
inductive FingerConvergencePhase
  | dormant
  | converged
  | runnable
  | awaitingReport (remainingMs : ℕ)
  | awaitingAdmission (remainingMs : ℕ)
deriving DecidableEq

structure FingerConvergenceStatus where
  phase : FingerConvergencePhase
  failureStreak : ℕ
deriving DecidableEq

/-- Whether polling this status can produce finger work. -/
def FingerConvergenceStatus.mayAdvance (status : FingerConvergenceStatus) : Bool :=
  match status.phase with
  | .dormant | .converged => false
  | _ => true

inductive MaintenanceTask
  | stabilize | repair | convergeFingers
deriving DecidableEq

structure MaintenanceDecision where
  task : Option MaintenanceTask
  /-- An elapsed periodic repair deadline created a repair intent. -/
  periodicRepairDue : Bool
  /-- Repair is pending but does not fit before the next topology phase. -/
  repairDeferredForWindow : Bool

structure MaintenanceSchedule where
  periodMs : ℕ
  lastObservedMs : ℕ
  nextStabilizeMs : ℕ
  nextRepairMs : ℕ
  repairNotBeforeMs : ℕ
  repairAdmissionBudgetMs : ℕ
  repairTurnReserved : Bool
  nextFingerMs : ℕ
  fingerPhaseLastPoll : FingerConvergencePhase
  fingerFailureStreak : ℕ
  fingerJitterState : BitVec 64
  fingerPriorityDeferrals : ℕ

def storageRepairPhaseOffset : ℕ := 5000
def storageRepairAdmissionBudget : ℕ := 5000
def maintenanceQuietGap : ℕ := 50
def fingerConvergenceInitialJitter : ℕ := 10000
def fingerConvergenceResumeRephaseThreshold : ℕ := 10000
def maxFingerPriorityDeferrals : ℕ := 2

/-- The bytes of a word, the most significant first. -/
def bigEndianBytes {w : ℕ} (v : BitVec w) : List (BitVec 8) :=
  (List.range (w / 8)).map fun i => v.extractLsb' (w - 8 * (i + 1)) 8

/-- The first jitter state of a node lifecycle. -/
def fingerJitterSeed (local_ : Did) (entropy : Uuid) : BitVec 64 :=
  (bigEndianBytes local_ ++ bigEndianBytes entropy).foldl
    (fun seed byte => seed * 0x00000100000001b3#64 ^^^ byte.setWidth 64) 0xcbf29ce484222325#64

/-- One step of the xorshift that spreads finger turns. -/
def mixJitter (value : BitVec 64) : BitVec 64 :=
  let value := value ^^^ (value <<< 13)
  let value := value ^^^ (value >>> 7)
  value ^^^ (value <<< 17)

/-- The wake a lease dictates: the awaiting phases wake at its expiry. -/
def leaseDeadlineMs (phase : FingerConvergencePhase) (baseMs : ℕ) : Option ℕ :=
  match phase with
  | .awaitingReport remainingMs | .awaitingAdmission remainingMs =>
    some (saturatingAdd u64Max baseMs remainingMs)
  | .dormant | .converged | .runnable => none

/-- First periodic deadline strictly after `nowMs`. -/
def nextDeadlineAfter (deadlineMs periodMs nowMs : ℕ) : ℕ :=
  let elapsedMs := nowMs - deadlineMs
  let periods := saturatingAdd u64Max (elapsedMs / periodMs) 1
  let next := saturatingAdd u64Max deadlineMs (min (periods * periodMs) u64Max)
  if next ≤ nowMs then u64Max else next

namespace MaintenanceSchedule

def new (nowMs interval : ℕ) (local_ : Did) (jitterEntropy : Uuid) : MaintenanceSchedule :=
  let periodMs := max (min interval u64Max) 2
  let offsetMs := max (min storageRepairPhaseOffset (periodMs / 2)) 1
  let nextStabilizeMs := saturatingAdd u64Max nowMs periodMs
  { periodMs
    lastObservedMs := nowMs
    nextStabilizeMs
    nextRepairMs := saturatingAdd u64Max nextStabilizeMs offsetMs
    repairNotBeforeMs := nowMs
    repairAdmissionBudgetMs := storageRepairAdmissionBudget
    repairTurnReserved := false
    nextFingerMs := u64Max
    fingerPhaseLastPoll := .dormant
    fingerFailureStreak := 0
    fingerJitterState := fingerJitterSeed local_ jitterEntropy
    fingerPriorityDeferrals := 0 }

variable (s : MaintenanceSchedule)

/-! ### Pacing finger turns -/

/-- A jittered retry delay, and the state that drew it. -/
def nextFingerDelayMs (failureStreak : ℕ) : ℕ × MaintenanceSchedule :=
  let state := mixJitter s.fingerJitterState
  let retryFloorMs := fingerLookupBackoffMs failureStreak
  (saturatingAdd u64Max retryFloorMs (state.toNat % saturatingAdd u64Max retryFloorMs 1),
    { s with fingerJitterState := state })

/-- The first delay after convergence becomes runnable. -/
def nextInitialFingerDelayMs : ℕ × MaintenanceSchedule :=
  let state := mixJitter s.fingerJitterState
  (saturatingAdd u64Max (fingerLookupBackoffMs 0)
      (state.toNat % saturatingAdd u64Max fingerConvergenceInitialJitter 1),
    { s with fingerJitterState := state })

/-- Align the finger deadline with the convergence phase. -/
def reconcileFingerStatus (nowMs : ℕ) (status : FingerConvergenceStatus) : MaintenanceSchedule :=
  let paceChanged := status.failureStreak ≠ s.fingerFailureStreak
  let phaseChanged := status.phase ≠ s.fingerPhaseLastPoll
  let activated := s.fingerPhaseLastPoll = .dormant
  let s' :=
    match status.phase with
    | .runnable =>
      if phaseChanged then
        let (delayMs, s') :=
          if activated ∧ status.failureStreak = 0 then s.nextInitialFingerDelayMs
          else s.nextFingerDelayMs status.failureStreak
        { s' with nextFingerMs := saturatingAdd u64Max nowMs delayMs }
      else if paceChanged then
        let (delayMs, s') := s.nextFingerDelayMs status.failureStreak
        { s' with nextFingerMs := saturatingAdd u64Max nowMs delayMs }
      else s
    | phase => { s with nextFingerMs := (leaseDeadlineMs phase nowMs).getD u64Max }
  { s' with fingerPhaseLastPoll := status.phase, fingerFailureStreak := status.failureStreak }

/-- Rephase overdue runnable work after a suspension-sized gap between observations. -/
def rephaseStaleFingerDeadline (nowMs observationGapMs : ℕ) (status : FingerConvergenceStatus) :
    MaintenanceSchedule :=
  let staleByMs := nowMs - s.nextFingerMs
  if status.phase = .runnable ∧ s.nextFingerMs ≠ u64Max ∧
      fingerConvergenceResumeRephaseThreshold ≤ observationGapMs ∧
      fingerConvergenceResumeRephaseThreshold ≤ staleByMs then
    let (delayMs, s') := s.nextInitialFingerDelayMs
    { s' with
      nextFingerMs := saturatingAdd u64Max nowMs delayMs
      fingerPriorityDeferrals := 0 }
  else s

/-! ### Windows for storage repair -/

/-- Advance the periodic repair deadline if this observation crossed it. -/
def advanceRepairDeadlineIfDue (nowMs : ℕ) : Bool × MaintenanceSchedule :=
  if nowMs < s.nextRepairMs then (false, s)
  else (true, { s with nextRepairMs := nextDeadlineAfter s.nextRepairMs s.periodMs nowMs })

def requiredRepairWindowMs : ℕ :=
  saturatingAdd u64Max s.repairAdmissionBudgetMs maintenanceQuietGap

def storageRepairWindowMs (nowMs : ℕ) : ℕ := s.nextStabilizeMs - nowMs

def hasStorageRepairWindow (nowMs : ℕ) : Bool :=
  s.requiredRepairWindowMs ≤ s.storageRepairWindowMs nowMs

def canStartStorageRepair (nowMs : ℕ) : Bool :=
  s.repairNotBeforeMs ≤ nowMs && s.hasStorageRepairWindow nowMs

def reservedRepairReady (nowMs : ℕ) (repairPending : Bool) : Bool :=
  s.repairTurnReserved && repairPending && decide (s.repairNotBeforeMs ≤ nowMs)

/-! ### Polling -/

/-- The task of a poll, from the deadlines it reconciled. -/
def selectTask (nowMs : ℕ) (repairPending : Bool) (fingerReady : Bool) : Option MaintenanceTask :=
  if fingerReady = true ∧ maxFingerPriorityDeferrals ≤ s.fingerPriorityDeferrals then
    some .convergeFingers
  else if s.reservedRepairReady nowMs repairPending then some .repair
  else if s.nextStabilizeMs ≤ nowMs then some .stabilize
  else if repairPending && s.canStartStorageRepair nowMs then some .repair
  else if fingerReady then some .convergeFingers
  else none

/-- The consecutive due finger turns yielded, after a poll. -/
def deferralsAfter (fingerReady : Bool) (task : Option MaintenanceTask) : ℕ :=
  match fingerReady, task with
  | _, some .convergeFingers | false, _ => 0
  | true, some _ => saturatingAdd u8Max s.fingerPriorityDeferrals 1
  | true, none => s.fingerPriorityDeferrals

def poll (nowMs : ℕ) (repairPending : Bool) (fingerStatus : FingerConvergenceStatus) :
    MaintenanceSchedule × MaintenanceDecision :=
  let observationGapMs := nowMs - s.lastObservedMs
  let s := { s with lastObservedMs := max s.lastObservedMs nowMs }
  let s := s.reconcileFingerStatus nowMs fingerStatus
  let s := s.rephaseStaleFingerDeadline nowMs observationGapMs fingerStatus
  let (periodicRepairDue, s) := s.advanceRepairDeadlineIfDue nowMs
  let effectiveRepairPending := repairPending || periodicRepairDue
  let s := { s with repairTurnReserved := s.repairTurnReserved && effectiveRepairPending }
  let fingerReady := fingerStatus.mayAdvance && decide (s.nextFingerMs ≤ nowMs)
  let task := s.selectTask nowMs effectiveRepairPending fingerReady
  let s := { s with fingerPriorityDeferrals := s.deferralsAfter fingerReady task }
  (s, {
    task
    periodicRepairDue
    repairDeferredForWindow := effectiveRepairPending && !s.repairTurnReserved &&
      !decide (s.nextStabilizeMs ≤ nowMs) && !s.hasStorageRepairWindow nowMs })

/-- Next instant the loop should wake for. -/
def nextWakeMs (nowMs : ℕ) (repairPending fingerPending : Bool) : ℕ :=
  let next := min s.nextStabilizeMs s.nextRepairMs
  let next := if fingerPending then min next s.nextFingerMs else next
  if repairPending = false then next
  else if s.canStartStorageRepair nowMs then nowMs
  else if nowMs < s.repairNotBeforeMs ∧ s.hasStorageRepairWindow s.repairNotBeforeMs = true then
    min next s.repairNotBeforeMs
  else next

/-! ### Completing a task -/

/-- Reconcile deadlines after a stabilization; whether a periodic repair deadline elapsed. -/
def completeStabilization (completedAtMs : ℕ) (repairPending : Bool) :
    Bool × MaintenanceSchedule :=
  let s := { s with lastObservedMs := max s.lastObservedMs completedAtMs }
  let (periodicRepairDue, s) := s.advanceRepairDeadlineIfDue completedAtMs
  let s := { s with
    nextStabilizeMs := nextDeadlineAfter s.nextStabilizeMs s.periodMs completedAtMs
    repairNotBeforeMs := saturatingAdd u64Max completedAtMs maintenanceQuietGap
    repairTurnReserved := repairPending || periodicRepairDue }
  let s :=
    if s.repairTurnReserved then
      let reservedDeadline :=
        saturatingAdd u64Max s.repairNotBeforeMs s.requiredRepairWindowMs
      { s with nextStabilizeMs := max s.nextStabilizeMs reservedDeadline }
    else s
  (periodicRepairDue, s)

/-- Reconcile deadlines after a repair. -/
def completeRepair (completedAtMs : ℕ) (succeeded : Bool) : MaintenanceSchedule :=
  let postRepairDeadline := saturatingAdd u64Max completedAtMs maintenanceQuietGap
  { s with
    lastObservedMs := max s.lastObservedMs completedAtMs
    repairTurnReserved := false
    nextStabilizeMs := max s.nextStabilizeMs postRepairDeadline
    repairNotBeforeMs := if succeeded then postRepairDeadline else s.nextRepairMs }

/-- Reconcile the finger deadline after one finger turn. -/
def completeFingerConvergence (completedAtMs : ℕ) (status : FingerConvergenceStatus) :
    MaintenanceSchedule :=
  let s := { s with
    lastObservedMs := max s.lastObservedMs completedAtMs
    fingerPhaseLastPoll := status.phase
    fingerFailureStreak := status.failureStreak }
  match status.phase with
  | .runnable =>
    let (delayMs, s) := s.nextFingerDelayMs status.failureStreak
    { s with nextFingerMs := saturatingAdd u64Max completedAtMs delayMs }
  | phase => { s with nextFingerMs := (leaseDeadlineMs phase completedAtMs).getD u64Max }

end MaintenanceSchedule

end Rings
