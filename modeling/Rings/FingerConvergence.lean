import Rings.FingerEvidence

/-!
The state machine of range-aware finger convergence: the one lookup or admission proof it
owns, the retry floor, and the transitions that validate, retain, apply and retire a report.
Time is data: every transition that reads a clock is given the reading.
-/

namespace Rings

/-! ### Ownership of one attempt -/

structure PendingFingerLookup where
  request : FingerFixRequest
  issuedEpoch : ℕ
  expiresAtMs : ℕ
  deriving DecidableEq

structure AdmissionFingerProof where
  proof : FingerRangeProof
  expiresAtMs : ℕ
  deriving DecidableEq

/-- Exactly one ownership phase: no lookup, a lookup awaiting its report, or a validated
proof awaiting the admission of its candidate. -/
inductive FingerAttempt
  | idle
  | awaitingReport (pending : PendingFingerLookup)
  | awaitingAdmission (admission : AdmissionFingerProof)
  deriving DecidableEq

inductive FingerProofSource
  | report (issuedEpoch : ℕ)
  | admission (proof : FingerRangeProof)
  deriving DecidableEq

namespace FingerAttempt

def isIdle : FingerAttempt → Bool
  | .idle => true
  | _ => false

def request : FingerAttempt → Option FingerFixRequest
  | .idle => none
  | .awaitingReport p => some p.request
  | .awaitingAdmission a => some a.proof.request

/-- Once a proof is retained, both its token and its successor are fixed. -/
def canConsume (a : FingerAttempt) (request : FingerFixRequest) (successor : Did) : Bool :=
  match a with
  | .idle => false
  | .awaitingReport p => p.request = request
  | .awaitingAdmission a => a.proof.request = request && a.proof.successor = successor

def isExpired (a : FingerAttempt) (nowMs : ℕ) : Bool :=
  match a with
  | .idle => false
  | .awaitingReport p => nowMs ≥ p.expiresAtMs
  | .awaitingAdmission a => nowMs ≥ a.expiresAtMs

def proofSource (a : FingerAttempt) (request : FingerFixRequest) (successor : Did) (nowMs : ℕ) :
    Except FingerReportRejection FingerProofSource :=
  if ¬ a.canConsume request successor then .error .stale
  else if a.isExpired nowMs then .error .expired
  else match a with
    | .awaitingReport p => .ok (.report p.issuedEpoch)
    | .awaitingAdmission a => .ok (.admission a.proof)
    | .idle => .error .stale

def alreadyRetains (a : FingerAttempt) (proof : FingerRangeProof) : Bool :=
  match a with
  | .awaitingAdmission a => a.proof = proof
  | _ => false

/-- Release ownership only if `request` matches; says whether it did. -/
def clearIfOwned (a : FingerAttempt) (request : FingerFixRequest) : FingerAttempt × Bool :=
  if a.request = some request then (.idle, true) else (a, false)

/-- Release ownership if its lower slot lies in the inclusive range. -/
def clearIfSlotIn (a : FingerAttempt) (start stop : ℕ) : FingerAttempt × Bool :=
  if a.request.any (fun r => start ≤ r.slotIndex ∧ r.slotIndex ≤ stop) then (.idle, true)
  else (a, false)

end FingerAttempt

/-! ### Pacing -/

def fingerLookupMinIntervalMs : ℕ := 1000
def fingerLookupMaxBackoffMs : ℕ := 60000
def fingerLookupMaxBackoffExponent : ℕ := 6
def fingerLookupTimeoutMs : ℕ := 10000
def fingerAdmissionTimeoutMs : ℕ := 210000

/-- Exponential retry floor after `failureStreak` consecutive failures. -/
def fingerLookupBackoffMs (failureStreak : ℕ) : ℕ :=
  min (fingerLookupMinIntervalMs * 2 ^ min failureStreak fingerLookupMaxBackoffExponent)
    fingerLookupMaxBackoffMs

structure FingerRetryState where
  lastIssuedAtMs : Option ℕ := none
  failureStreak : ℕ := 0
  retryNotBeforeMs : Option ℕ := none
  deriving DecidableEq

namespace FingerRetryState

def permitsIssue (r : FingerRetryState) (nowMs : ℕ) : Bool :=
  r.lastIssuedAtMs.all (fun last => nowMs - last ≥ fingerLookupMinIntervalMs) &&
    r.retryNotBeforeMs.all (fun deadline => nowMs ≥ deadline)

def recordIssue (r : FingerRetryState) (nowMs : ℕ) : FingerRetryState :=
  { r with lastIssuedAtMs := some nowMs }

def recordFailure (r : FingerRetryState) (nowMs : ℕ) : FingerRetryState :=
  let streak := saturatingAdd u8Max r.failureStreak 1
  { r with
    failureStreak := streak
    retryNotBeforeMs := some (saturatingAdd u64Max nowMs (fingerLookupBackoffMs streak)) }

def recordProgress (r : FingerRetryState) : FingerRetryState :=
  { r with failureStreak := 0, retryNotBeforeMs := none }

end FingerRetryState

/-! ### The convergence state -/

structure FingerConvergenceState where
  evidence : FingerEvidence
  attempt : FingerAttempt
  retry : FingerRetryState
  cursor : ℕ
  deriving DecidableEq

namespace FingerConvergenceState

def new (slotCount : ℕ) : FingerConvergenceState := ⟨.new slotCount, .idle, {}, 0⟩

/-- Invalidate the evidence whose hint changed; an attempt whose lower slot changed is
retired. -/
def invalidateHintChanges (c : FingerConvergenceState) (before after : Fingers) :
    FingerConvergenceState :=
  let activeHintChanged := c.attempt.request.any fun r =>
    FingerEvidence.hintChangedAt before after r.slotIndex
  let (evidence, invalidation) := c.evidence.invalidateHintChanges before after
  { c with
    evidence := evidence
    attempt := if activeHintChanged || invalidation = .epochExhausted then .idle else c.attempt }

def invalidateAllEvidence (c : FingerConvergenceState) : FingerConvergenceState :=
  if c.attempt.isIdle && c.evidence.allUnverified then c
  else { c with evidence := c.evidence.invalidateAll, attempt := .idle }

/-- Reopen one range for revalidation, unless an attempt is active or succeeding routable
work is still pending. -/
def beginRevalidation (c : FingerConvergenceState) (fingers : Fingers) (firstRoutableSlot : ℕ) :
    FingerConvergenceState :=
  let succeedingWorkPending :=
    c.evidence.anyUnverifiedFrom firstRoutableSlot && c.retry.failureStreak == 0
  if c.attempt.isIdle && !succeedingWorkPending then
    { c with evidence := c.evidence.reopenNextRange fingers c.cursor }
  else c

/-- Record one failed attempt at `slot` and move selection past its hint run. -/
def failAttempt (c : FingerConvergenceState) (fingers : Fingers) (slot nowMs : ℕ) :
    FingerConvergenceState :=
  { c with
    attempt := .idle
    cursor := FingerEvidence.hintRunEnd fingers slot + 1
    retry := c.retry.recordFailure nowMs }

/-- Reserve the next lookup if ownership, evidence and pacing allow it. The turn that times
an attempt out reserves nothing. -/
def prepareLookup (c : FingerConvergenceState) (fingers : Fingers) (firstSlot nowMs : ℕ)
    (requestId : Uuid) : FingerConvergenceState × Option FingerFixRequest :=
  if fingers.isEmpty then (c, none)
  else if c.attempt.isExpired nowMs then
    match c.attempt.request with
    | some request => (c.failAttempt fingers request.slotIndex nowMs, none)
    | none => (c, none)
  else if !c.attempt.isIdle || c.evidence.allVerified || !c.retry.permitsIssue nowMs then
    (c, none)
  else match (c.evidence.nextUnverifiedCyclic firstSlot c.cursor).bind
      (FingerFixRequest.new · requestId) with
    | none => (c, none)
    | some request =>
      let expiresAtMs := saturatingAdd u64Max nowMs fingerLookupTimeoutMs
      ({ c with
          attempt := .awaitingReport ⟨request, c.evidence.epoch, expiresAtMs⟩
          retry := c.retry.recordIssue nowMs }, some request)

/-- Token ownership first, then the Chord range and the evidence epoch. A retained proof
passed the last two when it was retained. -/
def validatedProof (c : FingerConvergenceState) (loc : Did) (slotCount : ℕ)
    (request : FingerFixRequest) (successor : Did) (nowMs : ℕ) :
    Except FingerReportRejection FingerRangeProof :=
  match c.attempt.proofSource request successor nowMs with
  | .error rejection => .error rejection
  | .ok (.admission proof) => .ok proof
  | .ok (.report issuedEpoch) =>
    match fingerProofEnd loc successor request.slotIndex slotCount with
    | none => .error .invalid
    | some endSlot =>
      let proof : FingerRangeProof := ⟨request, issuedEpoch, successor, endSlot⟩
      if c.evidence.accepts proof then .ok proof else .error .stale

/-- Retire a consumed current token; a stale report adds no retry pressure. -/
def retireRejectedCurrent (c : FingerConvergenceState) (fingers : Fingers)
    (request : FingerFixRequest) (successor : Did) (rejection : FingerReportRejection)
    (nowMs : ℕ) : FingerConvergenceState :=
  if ¬ c.attempt.canConsume request successor then c
  else if rejection.countsAsFailure then c.failAttempt fingers request.slotIndex nowMs
  else { c with attempt := .idle }

/-- Retain a timely report while the transport admits its candidate. -/
def deferResult (c : FingerConvergenceState) (loc : Did) (fingers : Fingers)
    (request : FingerFixRequest) (successor : Did) (nowMs : ℕ) : FingerConvergenceState :=
  match c.validatedProof loc fingers.length request successor nowMs with
  | .error rejection => c.retireRejectedCurrent fingers request successor rejection nowMs
  | .ok proof =>
    if c.attempt.alreadyRetains proof then c
    else
      let expiresAtMs := saturatingAdd u64Max nowMs fingerAdmissionTimeoutMs
      { c with attempt := .awaitingAdmission ⟨proof, expiresAtMs⟩ }

/-- Commit a report to every still-current slot it proves. -/
def applyResult (c : FingerConvergenceState) (loc : Did) (fingers : Fingers)
    (request : FingerFixRequest) (successor : Did) (nowMs : ℕ) :
    Fingers × FingerConvergenceState :=
  match c.validatedProof loc fingers.length request successor nowMs with
  | .error rejection =>
    (fingers, c.retireRejectedCurrent fingers request successor rejection nowMs)
  | .ok proof =>
    let (next, evidence) := c.evidence.apply fingers loc proof
    (next, { evidence := evidence
             attempt := (c.attempt.clearIfOwned request).1
             cursor := proof.endSlot + 1
             retry := c.retry.recordProgress })

/-- Retire a current, valid report whose candidate the transport cannot use: its whole proved
range failed with it. -/
def retireResult (c : FingerConvergenceState) (loc : Did) (fingers : Fingers)
    (request : FingerFixRequest) (successor : Did) (nowMs : ℕ) : FingerConvergenceState :=
  match c.validatedProof loc fingers.length request successor nowMs with
  | .error rejection => c.retireRejectedCurrent fingers request successor rejection nowMs
  | .ok proof =>
    { c with
      attempt := .idle
      cursor := proof.endSlot + 1
      retry := c.retry.recordFailure nowMs }

/-- Accept equivalent evidence produced by another local topology step. -/
def confirmRange (c : FingerConvergenceState) (start stop : ℕ) : FingerConvergenceState :=
  let (evidence, newlyVerified) := c.evidence.confirmRange start stop
  let (attempt, superseded) := c.attempt.clearIfSlotIn start stop
  { evidence := evidence
    attempt := attempt
    cursor := if superseded then stop + 1 else c.cursor
    retry := if newlyVerified || superseded then c.retry.recordProgress else c.retry }

/-- Cancel only the exact attempt owned by `request`. -/
def cancel (c : FingerConvergenceState) (fingers : Fingers) (request : FingerFixRequest)
    (nowMs : ℕ) : FingerConvergenceState :=
  if (c.attempt.clearIfOwned request).2 then
    { c with attempt := .idle }.failAttempt fingers request.slotIndex nowMs
  else c

end FingerConvergenceState

end Rings
