import Rings.PeerQuota

/-!
The registry of logical connections: for each peer at most one generation, in one phase.

A pending record carries the signaling state of its handshake, in a map of its own beside the
records. The registry hands out generations, bounds the records it holds, and once closed
reserves no more.
-/

namespace Rings

inductive OfferOwner
  | overlay | external
  deriving DecidableEq

inductive OfferPhase
  | creating
  | sent (sdp : String) (txId : Uuid)
  | answered
  deriving DecidableEq

inductive Handshake
  | offering (owner : OfferOwner) (phase : OfferPhase)
  | answering
  deriving DecidableEq

structure PendingConnectionAttempt where
  peer : Did
  generation : ℕ
  deriving DecidableEq

inductive PeerConnectionLifecycle
  | pending (attempt : PendingConnectionAttempt) (startedAtMs : ℤ)
  | admitting (attempt : PendingConnectionAttempt) (startedAtMs : ℤ)
  | active (attempt : PendingConnectionAttempt)
  deriving DecidableEq

namespace PeerConnectionLifecycle

def attempt : PeerConnectionLifecycle → PendingConnectionAttempt
  | pending a _ | admitting a _ | active a => a

/-- The record counts against the handshake share. -/
def isUnadmitted : PeerConnectionLifecycle → Bool
  | pending .. | admitting .. => true
  | active _ => false

@[simp] lemma attempt_pending (a : PendingConnectionAttempt) (t : ℤ) : (pending a t).attempt = a :=
  rfl
@[simp] lemma attempt_admitting (a : PendingConnectionAttempt) (t : ℤ) :
    (admitting a t).attempt = a := rfl
@[simp] lemma attempt_active (a : PendingConnectionAttempt) : (active a).attempt = a := rfl

@[simp] lemma isUnadmitted_pending (a : PendingConnectionAttempt) (t : ℤ) :
    (pending a t).isUnadmitted = true := rfl
@[simp] lemma isUnadmitted_admitting (a : PendingConnectionAttempt) (t : ℤ) :
    (admitting a t).isUnadmitted = true := rfl
@[simp] lemma isUnadmitted_active (a : PendingConnectionAttempt) :
    (active a).isUnadmitted = false := rfl

end PeerConnectionLifecycle

structure LifecycleBounds where
  pending : ℕ
  total : ℕ
  pending_le : pending ≤ total

/-- `pending` clamped into `total`. -/
def LifecycleBounds.new (pending total : ℕ) : LifecycleBounds where
  pending := if pending < total then pending else total
  total := total
  pending_le := by split <;> omega

inductive ReservationVerdict
  | closed | alreadyConnected | pendingCapacityExceeded | capacityExceeded | admissible
  deriving DecidableEq

/-- The errors of the registry. -/
inductive ConnectionError
  | swarmClosed
  | alreadyConnected
  | pendingConnectionCapacityExceeded (capacity : ℕ)
  | connectionCapacityExceeded (capacity : ℕ)
  | pendingConnectionGenerationExhausted
  deriving DecidableEq

inductive RetirementOutcome (T : Type*)
  | superseded
  | declined
  | retired (value : T)

inductive UnadmittedPhase
  | pending | admitting

structure ExpiredUnadmittedPeer where
  attempt : PendingConnectionAttempt
  ageMs : ℤ
  phase : UnadmittedPhase

/-- The longest life of an unadmitted generation. -/
def pendingConnectionTimeoutMs : ℤ := 180000

def i64Max : ℤ := 2 ^ 63 - 1
def i64Min : ℤ := -2 ^ 63

/-- `a.saturating_sub(b)` of `i64`. -/
def i64SaturatingSub (a b : ℤ) : ℤ := max i64Min (min i64Max (a - b))

structure ConnectionLifecycleRegistry where
  bounds : LifecycleBounds
  nextGeneration : ℕ
  peers : BTreeMap Did PeerConnectionLifecycle
  handshakes : BTreeMap Did Handshake
  sendTerminal : Finset PendingConnectionAttempt
  closed : Bool

namespace ConnectionLifecycleRegistry

def new (bounds : LifecycleBounds) : ConnectionLifecycleRegistry :=
  ⟨bounds, 0, .empty, .empty, ∅, false⟩

/-- Close: the peers the registry still holds a record of are returned. -/
def close (r : ConnectionLifecycleRegistry) : List Did × ConnectionLifecycleRegistry :=
  (r.peers.entries.map Prod.fst, { r with closed := true })

def contains (r : ConnectionLifecycleRegistry) (peer : Did) : Bool := (r.peers.get? peer).isSome

/-- All incomplete admissions, counted against the handshake share. -/
def pendingLen (r : ConnectionLifecycleRegistry) : ℕ :=
  r.peers.countBy PeerConnectionLifecycle.isUnadmitted

def reservationVerdict (r : ConnectionLifecycleRegistry) (peer : Did) : ReservationVerdict :=
  if r.closed then .closed
  else if r.contains peer then .alreadyConnected
  else if r.pendingLen ≥ r.bounds.pending then .pendingCapacityExceeded
  else if r.peers.size ≥ r.bounds.total then .capacityExceeded
  else .admissible

/-- Allocate the next generation for `peer`. -/
def nextAttempt (r : ConnectionLifecycleRegistry) (peer : Did) :
    Except ConnectionError (PendingConnectionAttempt × ConnectionLifecycleRegistry) :=
  match checkedAdd u64Max r.nextGeneration 1 with
  | none => .error .pendingConnectionGenerationExhausted
  | some generation => .ok (⟨peer, generation⟩, { r with nextGeneration := generation })

/-- Install `a` as its peer's pending record. -/
def insertPending (r : ConnectionLifecycleRegistry) (a : PendingConnectionAttempt) (nowMs : ℤ)
    (handshake : Handshake) : ConnectionLifecycleRegistry :=
  { r with
    handshakes := r.handshakes.insert a.peer handshake
    peers := r.peers.insert a.peer (.pending a nowMs) }

/-- Reserve a pending generation for `peer` whose signaling starts in `handshake`. -/
def reserveFor (r : ConnectionLifecycleRegistry) (peer : Did) (nowMs : ℤ) (handshake : Handshake) :
    Except ConnectionError (PendingConnectionAttempt × ConnectionLifecycleRegistry) :=
  match r.reservationVerdict peer with
  | .closed => .error .swarmClosed
  | .alreadyConnected => .error .alreadyConnected
  | .pendingCapacityExceeded => .error (.pendingConnectionCapacityExceeded r.bounds.pending)
  | .capacityExceeded => .error (.connectionCapacityExceeded r.bounds.total)
  | .admissible =>
    (r.nextAttempt peer).map fun (a, r') => (a, r'.insertPending a nowMs handshake)

def state (r : ConnectionLifecycleRegistry) (peer : Did) : Option PeerConnectionLifecycle :=
  r.peers.get? peer

def pendingAttempt (r : ConnectionLifecycleRegistry) (peer : Did) :
    Option PendingConnectionAttempt :=
  match r.state peer with
  | some (.pending a _) => some a
  | some (.admitting ..) | some (.active _) | none => none

def unadmittedAttempt (r : ConnectionLifecycleRegistry) (peer : Did) :
    Option PendingConnectionAttempt :=
  match r.state peer with
  | some (.pending a _) | some (.admitting a _) => some a
  | some (.active _) | none => none

def activeAttempt (r : ConnectionLifecycleRegistry) (peer : Did) :
    Option PendingConnectionAttempt :=
  match r.state peer with
  | some (.active a) => some a
  | some (.pending ..) | some (.admitting ..) | none => none

/-- `a` is the generation that owns its peer's active slot. -/
def ownsActiveSlot (r : ConnectionLifecycleRegistry) (a : PendingConnectionAttempt) : Bool :=
  r.activeAttempt a.peer = some a

def markSendTerminal (r : ConnectionLifecycleRegistry) (a : PendingConnectionAttempt) :
    Bool × ConnectionLifecycleRegistry :=
  if !r.ownsActiveSlot a then (false, r)
  else (true, { r with sendTerminal := insert a r.sendTerminal })

def activeConnections (r : ConnectionLifecycleRegistry) : List (Did × PendingConnectionAttempt) :=
  r.peers.entries.filterMap fun (peer, state) =>
    match state with
    | .active a => if a ∈ r.sendTerminal then none else some (peer, a)
    | .pending .. | .admitting .. => none

/-- `Pending(a) -> Admitting(a)`. -/
def beginAdmission (r : ConnectionLifecycleRegistry) (a : PendingConnectionAttempt) :
    Bool × ConnectionLifecycleRegistry :=
  match r.peers.get? a.peer with
  | some (.pending current startedAtMs) =>
    if current ≠ a then (false, r)
    else (true, { r with
      peers := r.peers.insert a.peer (.admitting a startedAtMs)
      handshakes := r.handshakes.remove a.peer })
  | some (.admitting ..) | some (.active _) | none => (false, r)

/-- The record of `a` while it is being admitted. -/
structure AdmittingConnection where
  registry : ConnectionLifecycleRegistry
  attempt : PendingConnectionAttempt

/-- `Admitting(a) -> Active(a)`. -/
def AdmittingConnection.activate (c : AdmittingConnection) : ConnectionLifecycleRegistry :=
  { c.registry with peers := c.registry.peers.insert c.attempt.peer (.active c.attempt) }

def admittingConnection (r : ConnectionLifecycleRegistry) (a : PendingConnectionAttempt) :
    Option AdmittingConnection :=
  match r.peers.get? a.peer with
  | some (.admitting current _) => if current = a then some ⟨r, a⟩ else none
  | some (.pending ..) | some (.active _) | none => none

/-- The signaling state of `a`, if it is its peer's pending generation. -/
def handshake (r : ConnectionLifecycleRegistry) (a : PendingConnectionAttempt) :
    Option Handshake :=
  if r.pendingAttempt a.peer = some a then r.handshakes.get? a.peer else none

/-- The yield of an offer to a crossing one: one pending record replaces another, if the
signaling state of `a` is still `observed`. -/
def replacePendingIn (r : ConnectionLifecycleRegistry) (a : PendingConnectionAttempt)
    (observed : Handshake) (nowMs : ℤ) :
    Except ConnectionError (Option PendingConnectionAttempt × ConnectionLifecycleRegistry) :=
  if r.handshake a ≠ some observed then .ok (none, r)
  else (r.nextAttempt a.peer).map fun (answering, r') =>
    (some answering, r'.insertPending answering nowMs .answering)

/-- Remove the record of `peer` together with its signaling state. -/
def removeRecord (r : ConnectionLifecycleRegistry) (peer : Did) : ConnectionLifecycleRegistry :=
  { r with peers := r.peers.remove peer, handshakes := r.handshakes.remove peer }

/-- `Pending(a) -> Absent`. -/
def removePending (r : ConnectionLifecycleRegistry) (a : PendingConnectionAttempt) :
    Bool × ConnectionLifecycleRegistry :=
  match r.state a.peer with
  | some (.pending current _) => if current = a then (true, r.removeRecord a.peer) else (false, r)
  | some (.admitting ..) | some (.active _) | none => (false, r)

/-- `Pending(a) | Admitting(a) -> Absent`. -/
def removeUnadmitted (r : ConnectionLifecycleRegistry) (a : PendingConnectionAttempt) :
    Bool × ConnectionLifecycleRegistry :=
  if r.unadmittedAttempt a.peer ≠ some a then (false, r)
  else (true, r.removeRecord a.peer)

/-- `Active(a) -> Absent`, if `a` owns the active slot and `action`, given the active set,
commits. -/
def retireActiveIf {E T : Type*} (r : ConnectionLifecycleRegistry) (a : PendingConnectionAttempt)
    (action : List (Did × PendingConnectionAttempt) → Except E (Option T)) :
    Except E (RetirementOutcome T × ConnectionLifecycleRegistry) :=
  if !r.ownsActiveSlot a then .ok (.superseded, r)
  else (action r.activeConnections).map fun
    | none => (.declined, r)
    | some value =>
      (.retired value, { r.removeRecord a.peer with sendTerminal := r.sendTerminal.erase a })

/-- What `expire` reads of one record. -/
def expired? (nowMs : ℤ) : PeerConnectionLifecycle → Option ExpiredUnadmittedPeer
  | .pending a startedAtMs => overdue a startedAtMs .pending
  | .admitting a startedAtMs => overdue a startedAtMs .admitting
  | .active _ => none
where
  overdue (a : PendingConnectionAttempt) (startedAtMs : ℤ) (phase : UnadmittedPhase) :
      Option ExpiredUnadmittedPeer :=
    let ageMs := i64SaturatingSub nowMs startedAtMs
    if ageMs ≥ pendingConnectionTimeoutMs then some ⟨a, ageMs, phase⟩ else none

def expire (r : ConnectionLifecycleRegistry) (nowMs : ℤ) :
    List ExpiredUnadmittedPeer × ConnectionLifecycleRegistry :=
  let expired := r.peers.entries.filterMap fun kv => expired? nowMs kv.2
  (expired, expired.foldl (fun r e => r.removeRecord e.attempt.peer) r)

/-- Apply `step` to the signaling state of `a`, if it is the pending generation and `step`
accepts the state. -/
def advanceHandshake (r : ConnectionLifecycleRegistry) (a : PendingConnectionAttempt)
    (step : Handshake → Option Handshake) : Bool × ConnectionLifecycleRegistry :=
  if r.pendingAttempt a.peer ≠ some a then (false, r)
  else match r.handshakes.get? a.peer with
    | none => (false, r)
    | some current =>
      match step current with
      | some next => (true, { r with handshakes := r.handshakes.insert a.peer next })
      | none => (false, r)

/-- `Offering(o, Creating) -> Offering(o, Sent(sdp, tx))`. -/
def markOfferSent (r : ConnectionLifecycleRegistry) (a : PendingConnectionAttempt) (sdp : String)
    (txId : Uuid) : Bool × ConnectionLifecycleRegistry :=
  r.advanceHandshake a fun
    | .offering owner .creating => some (.offering owner (.sent sdp txId))
    | .offering .. | .answering => none

/-- `Offering(o, Sent(_, t)) -> Offering(o, Answered)` for an answer echoing `t`; an answer
carried out of band echoes none, and also accepts an offer still being created. -/
def markOfferAnswered (r : ConnectionLifecycleRegistry) (a : PendingConnectionAttempt)
    (txId : Option Uuid) : Bool × ConnectionLifecycleRegistry :=
  r.advanceHandshake a fun
    | .offering owner (.sent _ sent) =>
      if txId.all (· = sent) then some (.offering owner .answered) else none
    | .offering owner .creating =>
      if txId.isNone then some (.offering owner .answered) else none
    | .offering _ .answered | .answering => none

/-- The pending generation of `peer` whose sent, unanswered offer left under `txId`. -/
def offerSentUnder (r : ConnectionLifecycleRegistry) (peer : Did) (txId : Uuid) :
    Option PendingConnectionAttempt :=
  (r.pendingAttempt peer).bind fun a =>
    match r.handshakes.get? peer with
    | some (.offering _ (.sent _ sent)) => if sent = txId then some a else none
    | some (.offering _ .creating) | some (.offering _ .answered) | some .answering | none => none

end ConnectionLifecycleRegistry

end Rings
