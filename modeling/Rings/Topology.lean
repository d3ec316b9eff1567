import Rings.FingerConvergence
import Mathlib.Data.List.MinMax
import Mathlib.Data.List.Sort
import Mathlib.Data.List.Destutter

/-!
The pure topology transition of one Chord node: the operators on a known set of peers, the
node's state, its events, and the step function with the actions it emits.
-/

namespace Rings

/-! ### State, events, actions -/

inductive ClaimPhase
  | requested | processing
  deriving DecidableEq

/-- The stabilization query whose report may refine the current successor view. -/
structure StabilizationRequest where
  reporter : Did
  requestId : Uuid
  phase : ClaimPhase
  deriving DecidableEq

structure TopologyState where
  localDid : Did
  successors : List Did
  predecessor : Option Did
  fingers : Fingers
  fingerConvergence : FingerConvergenceState
  pendingStabilization : Option StabilizationRequest
  deriving DecidableEq

def TopologyState.new (loc : Did) (successors : List Did) (predecessor : Option Did)
    (fingers : Fingers) : TopologyState :=
  ⟨loc, successors, predecessor, fingers, .new fingers.length, none⟩

inductive SuccessorRemoval
  | preserve
  | replaceWith (validated : List Did)
  deriving DecidableEq

inductive TopologyEvent
  | admitPeer (peer : Did) (deferredProof : Option FingerFixRequest) (nowMs : ℕ)
  | remove (peer : Did) (successor : SuccessorRemoval)
  | notify (predecessor : Did)
  | beginStabilize (requestId : Uuid)
  | claimStabilize (reporter : Did) (requestId : Uuid)
  | stabilize (reporter : Did) (requestId : Uuid) (successors : List Did)
      (predecessor : Option Did)
  | beginFingerRevalidation
  | advanceFingerConvergence (nowMs : ℕ) (requestId : Uuid)
  | applyFinger (request : FingerFixRequest) (successor : Did) (nowMs : ℕ)
  | deferFinger (request : FingerFixRequest) (successor : Did) (nowMs : ℕ)
  | cancelFinger (request : FingerFixRequest) (nowMs : ℕ)
  | cancelStabilize (requestId : Uuid)
  deriving DecidableEq

inductive TopologyAction
  | findSuccessorForConnect (next did : Did)
  | findSuccessorForFix (next did : Did) (request : FingerFixRequest)
  | querySuccessorList (peer : Did)
  | notify (peer : Did)
  | querySuccessorTopology (successor : Did) (requestId : Uuid)
  | successorHeadChanged (head : Did)
  deriving DecidableEq

structure TopologyStep where
  state : TopologyState
  actions : List TopologyAction
  deriving DecidableEq

inductive FindSuccessorStep
  | localAnswer (did : Did)
  | remote (next did : Did)
  deriving DecidableEq

namespace TopologyState

def canClaimStabilizationReport (s : TopologyState) (reporter : Did) (requestId : Uuid) : Bool :=
  s.pendingStabilization = some ⟨reporter, requestId, .requested⟩

def isProcessingStabilizationReport (s : TopologyState) (reporter : Did) (requestId : Uuid) :
    Bool :=
  s.pendingStabilization = some ⟨reporter, requestId, .processing⟩

end TopologyState

/-! ### Operators on a set of known peers -/

/-- Append `x` unless it is already present. -/
def pushUnique (xs : List Did) (x : Did) : List Did := if x ∈ xs then xs else xs ++ [x]

/-- Remove `loc`, sort by clockwise distance, deduplicate, truncate. -/
def sortedSuccessors (candidates : List Did) (loc : Did) (capacity : ℕ) : List Did :=
  (((candidates.filter (· ≠ loc)).insertionSort (dist loc · ≤ dist loc ·)).destutter
    (· ≠ ·)).take capacity

/-- The nearest forward nodes of `n`. -/
def successors (all : List Did) (n : Did) (capacity : ℕ) : List Did :=
  sortedSuccessors all n capacity

/-- The nearest node behind `n`. -/
def predecessor (all : List Did) (n : Did) : Option Did :=
  (all.filter (· ≠ n)).argmax (dist n)

/-- The nearest forward node at distance `≥ 2^bit`: sparse and without wrap. -/
def finger (all : List Did) (n : Did) (bit : ℕ) : Option Did :=
  (all.filter fun did => did ≠ n ∧ dist n did ≥ 2 ^ bit).argmin (dist n)

def updateSuccessors (loc : Did) (current : List Did) (candidate : Did) (capacity : ℕ) : List Did :=
  sortedSuccessors (pushUnique current candidate) loc capacity

/-- What learning `peer` makes of the hint `old` of slot `slot`. -/
def joinSlot (loc peer : Did) (slot : ℕ) (old : Option Did) : Option Did :=
  if dist loc peer < (powerOfTwo slot).toNat ∨ peer = loc then old
  else match old with
    | some existing => if dist loc existing < dist loc peer then old else some peer
    | none => some peer

def fingerJoin (loc : Did) (current : Fingers) (peer : Did) : Fingers :=
  current.mapIdx (joinSlot loc peer)

/-- Remove `peer` from every slot. A run of `peer` is filled with the hint that follows it, so
each slot of the run takes what the slot after it takes. -/
def removeFingerPeer : Fingers → Did → Fingers
  | [], _ => []
  | hint :: rest, peer =>
    let next := removeFingerPeer rest peer
    (if hint = some peer then next.head?.join else hint) :: next

/-! ### Lookup -/

def successorHead (s : TopologyState) : Option Did := s.successors.find? (· ≠ s.localDid)

/-- `peer` lies on the open arc from `loc` of length `target`. -/
def precedes (loc peer : Did) (target : ℕ) : Bool := peer ≠ loc && dist loc peer < target

def closestPrecedingFinger (s : TopologyState) (target : ℕ) : Option Did :=
  (s.fingers.reverse.filterMap id).find? (precedes s.localDid · target)

/-- The owner of the ring position `did`, or the next node to ask. -/
def findSuccessor (s : TopologyState) (did : Did) : FindSuccessorStep :=
  match successorHead s with
  | none => .localAnswer s.localDid
  | some head =>
    let target := dist s.localDid did
    if target ≤ dist s.localDid head then .localAnswer head
    else .remote ((closestPrecedingFinger s target).getD head) did

/-! ### Finger transitions -/

/-- Replace the hints of `s` and version the evidence they changed. -/
def rehint (s : TopologyState) (fingers : Fingers) : Fingers × FingerConvergenceState :=
  (fingers, s.fingerConvergence.invalidateHintChanges s.fingers fingers)

/-- Highest slot whose target lies in the local successor interval. -/
def localSuccessorRangeEnd (s : TopologyState) : Option ℕ :=
  (successorHead s).bind fun head => fingerProofEnd s.localDid head 0 s.fingers.length

/-- First slot whose target lies outside the local successor interval. -/
def firstRemoteSlot (s : TopologyState) : ℕ := (localSuccessorRangeEnd s).elim 0 (· + 1)

def applyFingerResult (s : TopologyState) (request : FingerFixRequest) (successor : Did)
    (nowMs : ℕ) : TopologyState :=
  let (fingers, convergence) :=
    s.fingerConvergence.applyResult s.localDid s.fingers request successor nowMs
  { s with fingers := fingers, fingerConvergence := convergence }

def deferFingerResult (s : TopologyState) (request : FingerFixRequest) (successor : Did)
    (nowMs : ℕ) : TopologyState :=
  { s with fingerConvergence :=
      s.fingerConvergence.deferResult s.localDid s.fingers request successor nowMs }

def cancelFingerResult (s : TopologyState) (request : FingerFixRequest) (nowMs : ℕ) :
    TopologyState :=
  { s with fingerConvergence := s.fingerConvergence.cancel s.fingers request nowMs }

def beginFingerRevalidation (s : TopologyState) : TopologyState :=
  { s with fingerConvergence :=
      s.fingerConvergence.beginRevalidation s.fingers (firstRemoteSlot s) }

/-- Reserve and route at most one lookup for the next unverified remote slot. -/
def stepFixFinger (s : TopologyState) (nowMs : ℕ) (requestId : Uuid) : TopologyStep :=
  -- isolation supplies no evidence that an empty range is globally empty
  if s.fingers.isEmpty || (successorHead s).isNone then ⟨s, []⟩
  else
    let (convergence, request?) :=
      s.fingerConvergence.prepareLookup s.fingers (firstRemoteSlot s) nowMs requestId
    let prepared := { s with fingerConvergence := convergence }
    match request? with
    | none => ⟨prepared, []⟩
    | some request =>
      match findSuccessor prepared (s.localDid + powerOfTwo request.slotIndex) with
      | .localAnswer successor => ⟨applyFingerResult prepared request successor nowMs, []⟩
      | .remote next did => ⟨prepared, [.findSuccessorForFix next did request]⟩

/-! ### Stabilization -/

/-- Correct predecessor after one rectify transition; `loc` is never its own predecessor. -/
def rectifyPredecessor (loc : Did) (current : Option Did) (candidate : Did) : Option Did :=
  if candidate = loc then current
  else match current with
    | some cur => if dist loc cur ≥ dist loc candidate then some cur else some candidate
    | none => some candidate

/-- Correct successor list after one stabilize transition: the merge of everything known. -/
def stabilizeSuccessors (loc : Did) (current topoSuccessors : List Did)
    (topoPredecessor : Option Did) (capacity : ℕ) : List Did :=
  let known := (current ++ topoPredecessor.toList ++ topoSuccessors).foldl pushUnique [loc]
  successors known loc capacity

/-- A reported predecessor is queried only when it improves on the current head. -/
def stabilizeQuery (loc : Did) (current : List Did) (topoPredecessor : Option Did) : Option Did :=
  topoPredecessor.bind fun pred =>
    if pred = loc then none
    else match current.argmin (dist loc) with
      | some head => if dist loc pred ≥ dist loc head then none else some pred
      | none => some pred

def stabilizeNotify (loc : Did) (nextSuccessors : List Did) : Option Did :=
  nextSuccessors.head?.filter (· ≠ loc)

/-- The local finger range proved by an authenticated current-head report. -/
def stabilizedSuccessorProofEnd (s : TopologyState) (reporter : Did) (nextSuccessors : List Did)
    (reportedPredecessor : Option Did) : Option ℕ :=
  if successorHead s ≠ some reporter ∨ nextSuccessors.head? ≠ some reporter ∨
      reportedPredecessor ≠ some s.localDid then none
  else fingerProofEnd s.localDid reporter 0 s.fingers.length

/-- Start a stabilization query against the current successor head. -/
def stepBegin (s : TopologyState) (requestId : Uuid) : TopologyStep :=
  match successorHead s with
  | none => ⟨{ s with pendingStabilization := none }, []⟩
  | some reporter =>
    -- the handler of a claimed report is still spending its budget: skip the round
    if s.pendingStabilization.any (·.phase = .processing) then ⟨s, []⟩
    else ⟨{ s with pendingStabilization := some ⟨reporter, requestId, .requested⟩ },
      [.querySuccessorTopology reporter requestId]⟩

def stepClaim (s : TopologyState) (reporter : Did) (requestId : Uuid) : TopologyStep :=
  ⟨{ s with pendingStabilization :=
      if s.canClaimStabilizationReport reporter requestId then
        some ⟨reporter, requestId, .processing⟩
      else s.pendingStabilization }, []⟩

/-- Apply a successor topology report that owns the current claim. -/
def stepStabilize (s : TopologyState) (reporter : Did) (requestId : Uuid)
    (topoSuccessors : List Did) (topoPredecessor : Option Did) (capacity : ℕ) : TopologyStep :=
  if ¬ s.isProcessingStabilizationReport reporter requestId then ⟨s, []⟩
  else
    let nextSuccessors :=
      stabilizeSuccessors s.localDid s.successors topoSuccessors topoPredecessor capacity
    let actions :=
      ((stabilizeQuery s.localDid s.successors topoPredecessor).map
        TopologyAction.querySuccessorList).toList ++
      ((stabilizeNotify s.localDid nextSuccessors).map TopologyAction.notify).toList
    let joined := nextSuccessors.foldl (fingerJoin s.localDid) s.fingers
    let proofEnd := stabilizedSuccessorProofEnd s reporter nextSuccessors topoPredecessor
    let hints := match proofEnd with
      | some stop => joined.mapIdx fun i f => if i < stop + 1 then some reporter else f
      | none => joined
    let (fingers, convergence) := rehint s hints
    ⟨{ s with
        successors := nextSuccessors
        fingers := fingers
        fingerConvergence := match proofEnd with
          | some stop => convergence.confirmRange 0 stop
          | none => convergence
        pendingStabilization := none }, actions⟩

/-! ### Membership -/

/-- Admit a transport-validated peer, and the finger proof that waited on it. -/
def stepAdmit (s : TopologyState) (peer : Did) (deferredProof : Option FingerFixRequest)
    (nowMs capacity : ℕ) : TopologyStep :=
  if peer = s.localDid then ⟨s, []⟩
  else
    -- the proof is replayed before the peer is inserted
    let verified := deferredProof.elim s (applyFingerResult s · peer nowMs)
    let nextSuccessors := updateSuccessors s.localDid s.successors peer capacity
    let inserted := peer ∉ s.successors ∧ peer ∈ nextSuccessors
    let (fingers, convergence) := rehint verified (fingerJoin s.localDid verified.fingers peer)
    ⟨{ verified with
        successors := nextSuccessors, fingers := fingers, fingerConvergence := convergence },
      (if inserted then [.querySuccessorList peer] else []) ++
        [.findSuccessorForConnect peer s.localDid]⟩

def stepRemove (s : TopologyState) (peer : Did) (successor : SuccessorRemoval) (capacity : ℕ) :
    TopologyStep :=
  let removedHead := s.successors.head? = some peer
  let surviving := s.successors.filter (· ≠ peer)
  let nextSuccessors := match successor with
    | .preserve => surviving
    | .replaceWith validated =>
      if removedHead then sortedSuccessors (validated.filter (· ≠ peer)) s.localDid capacity
      else surviving
  let (fingers, convergence) := rehint s (removeFingerPeer s.fingers peer)
  ⟨{ s with
      successors := nextSuccessors
      predecessor := s.predecessor.filter (· ≠ peer)
      fingers := fingers
      -- losing the last membership witness invalidates the proofs of empty ranges too
      fingerConvergence :=
        if nextSuccessors.isEmpty then convergence.invalidateAllEvidence else convergence }, []⟩

/-! ### The step -/

/-- The event's own transition, before the head law is applied. -/
def stepEvent (s : TopologyState) (event : TopologyEvent) (capacity : ℕ) : TopologyStep :=
  match event with
  | .admitPeer peer deferredProof nowMs => stepAdmit s peer deferredProof nowMs capacity
  | .remove peer successor => stepRemove s peer successor capacity
  | .notify predecessor =>
    ⟨{ s with predecessor := rectifyPredecessor s.localDid s.predecessor predecessor }, []⟩
  | .beginStabilize requestId => stepBegin s requestId
  | .claimStabilize reporter requestId => stepClaim s reporter requestId
  | .stabilize reporter requestId topoSuccessors topoPredecessor =>
    stepStabilize s reporter requestId topoSuccessors topoPredecessor capacity
  | .beginFingerRevalidation => ⟨beginFingerRevalidation s, []⟩
  | .advanceFingerConvergence nowMs requestId => stepFixFinger s nowMs requestId
  | .applyFinger request successor nowMs => ⟨applyFingerResult s request successor nowMs, []⟩
  | .deferFinger request successor nowMs => ⟨deferFingerResult s request successor nowMs, []⟩
  | .cancelFinger request nowMs => ⟨cancelFingerResult s request nowMs, []⟩
  | .cancelStabilize requestId =>
    ⟨{ s with pendingStabilization := s.pendingStabilization.filter (·.requestId ≠ requestId) },
      []⟩

/-- One topology transition: the event's own, then the head law. A moved head clears the
stabilization token and is reported once, as the last action. -/
def step (s : TopologyState) (event : TopologyEvent) (capacity : ℕ) : TopologyStep :=
  let next := stepEvent s event capacity
  let previousHead := successorHead s
  let nextHead := successorHead next.state
  ⟨if previousHead ≠ nextHead then { next.state with pendingStabilization := none } else next.state,
   next.actions ++ ((nextHead.filter (previousHead ≠ some ·)).map
    TopologyAction.successorHeadChanged).toList⟩

def run (capacity : ℕ) (s : TopologyState) (events : List TopologyEvent) : TopologyState :=
  events.foldl (fun s e => (step s e capacity).state) s

@[simp] lemma run_nil (k : ℕ) (s : TopologyState) : run k s [] = s := rfl
@[simp] lemma run_cons (k : ℕ) (s : TopologyState) (e : TopologyEvent) (es : List TopologyEvent) :
    run k s (e :: es) = run k (step s e k).state es := rfl
lemma run_append (k : ℕ) (s : TopologyState) (es fs : List TopologyEvent) :
    run k s (es ++ fs) = run k (run k s es) fs := by
  simp [run, List.foldl_append]

end Rings
