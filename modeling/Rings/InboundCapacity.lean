import Mathlib.Order.WithBot
import Rings.InboundActor
import Rings.PeerQuota
import Rings.ReservedCapacity
import Rings.SlotAccounting

/-!
The budgets of the inbound mailbox.

An arrival reserves its bytes on the budget of its peer, on its lane's share of the mailbox and,
when it is the first chunk of a message, in the table of open messages. A held charge gives them
back when it is dropped, and leaves the table of open messages when its message completes. The
three budgets are the ledger against which waiting arrivals are judged, each by the resources it
draws on.
-/

namespace Rings.Inbound

open Chunks

instance InboundLane.fintype : Fintype InboundLane :=
  ⟨⟨InboundLane.all, InboundLane.nodup_all⟩, InboundLane.mem_all⟩

/-- The peer of an arrival; an unknown peer comes first. -/
abbrev Peer := WithBot Did

def inboundMailboxCapacity : ℕ := 256
def inboundMailboxByteCapacity : ℕ := 256 * 1024 * 1024
def inboundReservedTransfersPerLane : ℕ := 16
def inboundReservedBytesPerLane : ℕ := 1024 * 1024
def inboundPeerCapacity : ℕ := 32
def inboundPeerByteCapacity : ℕ := 128 * 1024 * 1024

def mailboxLimits : CountedLimits InboundLane :=
  ⟨inboundMailboxCapacity, fun _ => inboundReservedTransfersPerLane,
    inboundMailboxByteCapacity, fun _ => inboundReservedBytesPerLane⟩

/-- `PEER_RESERVATION`: a peer's budget has one class, which reserves nothing. -/
def peerLimits : CountedLimits Unit :=
  ⟨inboundPeerCapacity, fun _ => 0, inboundPeerByteCapacity, fun _ => 0⟩

/-- `OPEN_SHARES`: the shares of the table of open messages, in retained bytes. -/
def openShares : Shares := ⟨256 * 1024, 128 * 1024 * 1024, 0, 0, 0, by decide⟩

inductive InboundCapacityError where
  | inboundMailboxMemoryCapacityExceeded (requestedBytes capacityBytes : ℕ)
  | inboundPeerMemoryCapacityExceeded (peer : Peer) (requestedBytes capacityBytes : ℕ)

def validateMemoryRequest (lane : InboundLane) (requestedBytes : ℕ) :
    Except InboundCapacityError Unit :=
  let limit := admissibleCapacity mailboxLimits.byteReservations lane inboundMailboxByteCapacity
  if requestedBytes > limit then
    .error (.inboundMailboxMemoryCapacityExceeded requestedBytes limit)
  else .ok ()

def validatePeerMemoryRequest (peer : Peer) (requestedBytes : ℕ) :
    Except InboundCapacityError Unit :=
  if requestedBytes > inboundPeerByteCapacity then
    .error (.inboundPeerMemoryCapacityExceeded peer requestedBytes inboundPeerByteCapacity)
  else .ok ()

inductive InboundResource where
  | stream (peer : Peer) (lane : InboundLane) (carrier : Option ChannelLane)
  | peer (peer : Peer)
  | lane (lane : InboundLane)
  | shared
  | openPool
  | floor (introducer : Principal)
deriving DecidableEq

inductive InboundCharge where
  /-- The retained bytes of a whole frame, on its own lane. -/
  | bytes (bytes : ℕ)
  /-- The retained bytes of the message a first chunk opens, on the lane of its carrier's class,
  introduced by the slot of the edge that delivered it. -/
  | message (bytes : ℕ) (lane : InboundLane) (introducer : Principal)
  /-- Nothing: a later chunk, whose first chunk was charged for all of it. -/
  | covered

namespace InboundCharge

def reservation (charge : InboundCharge) (lane : InboundLane) : Option (InboundLane × ℕ) :=
  match charge with
  | bytes n => some (lane, n)
  | message n lane _ => some (lane, n)
  | covered => none

def opening : InboundCharge → Option (Principal × ℕ)
  | message n _ introducer => some (introducer, n)
  | bytes _ => none
  | covered => none

end InboundCharge

structure InboundRequest where
  peer : Peer
  lane : InboundLane
  carrier : Option ChannelLane
  charge : InboundCharge

namespace InboundRequest

def reservation (request : InboundRequest) : Option (InboundLane × ℕ) :=
  request.charge.reservation request.lane

/-- The bounds of a request, checked before it may wait. -/
def validate (request : InboundRequest) : Except InboundCapacityError Unit :=
  match request.reservation with
  | none => .ok ()
  | some (lane, bytes) => do
    validateMemoryRequest lane bytes
    validatePeerMemoryRequest request.peer bytes

end InboundRequest

inductive InboundRefusal where
  | peer
  | mailbox
  | open_
deriving DecidableEq

/-- Capacity reserved for one peer on one lane, with the slot its bytes are held for while the
message they reserve is open. -/
structure HeldCharge where
  peer : Peer
  lane : InboundLane
  bytes : ℕ
  open_ : Option Principal

def HeldCharge.freed (charge : HeldCharge) : List InboundResource :=
  [.peer charge.peer, .lane charge.lane, .shared] ++
    (charge.open_.map fun _ => InboundResource.openPool).toList ++
    (charge.open_.map InboundResource.floor).toList

/-- The budgets: the mailbox, the peers and the table of open messages. -/
structure InboundLedger where
  state : CountedReservedCapacity InboundLane
  peerStates : BTreeMap Peer (CountedReservedCapacity Unit)
  open_ : SlotAccounting

namespace InboundLedger

def new : InboundLedger := ⟨.new, .empty, .new openShares⟩

/-- The budget of one peer. -/
def peerState (l : InboundLedger) (peer : Peer) : CountedReservedCapacity Unit :=
  (l.peerStates.get? peer).getD .new

/-- Reserve `bytes` of `peer` on `lane` and, for a message `opened` by a slot, in the table of
open messages: every budget changes, or none does and the refusing one is named. -/
def reserve (l : InboundLedger) (peer : Peer) (lane : InboundLane) (bytes : ℕ)
    (opened : Option Principal) : InboundLedger × Except InboundRefusal Unit :=
  match (l.peerState peer).tryReserve () bytes peerLimits with
  | (_, .error _) => (l, .error .peer)
  | (nextPeer, .ok ()) =>
    match l.state.tryReserve lane bytes mailboxLimits with
    | (_, .error _) => (l, .error .mailbox)
    | (next, .ok ()) =>
      match opened with
      | none => (⟨next, l.peerStates.insert peer nextPeer, l.open_⟩, .ok ())
      | some introducer =>
        match l.open_.admitItems introducer bytes with
        | .error _ => (l, .error .open_)
        | .ok () =>
          (⟨next, l.peerStates.insert peer nextPeer, l.open_.hold introducer bytes⟩, .ok ())

/-- Reserve `request` at once, or name the budget that refused it. A covered request reserves
nothing and is never refused. -/
def tryReserve (l : InboundLedger) (request : InboundRequest) :
    InboundLedger × Except InboundRefusal (Option HeldCharge) :=
  match request.reservation with
  | none => (l, .ok none)
  | some (lane, bytes) =>
    let opened := request.charge.opening.map Prod.fst
    match l.reserve request.peer lane bytes opened with
    | (l', .error refusal) => (l', .error refusal)
    | (l', .ok ()) => (l', .ok (some ⟨request.peer, lane, bytes, opened⟩))

/-- The message `charge` reserves completed: its bytes leave the table of open messages. -/
def close (l : InboundLedger) (charge : HeldCharge) : InboundLedger × HeldCharge :=
  match charge.open_ with
  | none => (l, charge)
  | some introducer =>
    ({ l with open_ := l.open_.release introducer charge.bytes }, { charge with open_ := none })

/-- Drop `charge`. -/
def drop (l : InboundLedger) (charge : HeldCharge) : InboundLedger where
  state := l.state.release charge.lane charge.bytes
  peerStates :=
    match l.peerStates.get? charge.peer with
    | none => l.peerStates
    | some peerState =>
      let peerState := peerState.release () charge.bytes
      if peerState.counts.admitted = 0 then l.peerStates.remove charge.peer
      else l.peerStates.insert charge.peer peerState
  open_ :=
    match charge.open_ with
    | none => l.open_
    | some introducer => l.open_.release introducer charge.bytes

/-! ### The ledger of the waiting arrivals -/

def stream (request : InboundRequest) : InboundResource :=
  .stream request.peer request.lane request.carrier

/-- Whether a first chunk of `request` draws on the pool of open messages. -/
def pooled (l : InboundLedger) (request : InboundRequest) : Bool :=
  request.charge.opening.any fun (introducer, bytes) => !l.open_.withinFloor introducer bytes

/-- The resources `request` draws on, were it attempted now. -/
def footprint (l : InboundLedger) (request : InboundRequest) : List InboundResource :=
  match request.reservation with
  | none => []
  | some (lane, bytes) =>
    [.peer request.peer, .lane lane] ++
      (if l.state.reservationCovers lane bytes mailboxLimits then [] else [.shared]) ++
      (if l.pooled request then [.openPool] else []) ++
      (request.charge.opening.map fun (introducer, _) => InboundResource.floor introducer).toList

/-- Each resource of the footprint whose release may shed others, with those. -/
def reliefs (l : InboundLedger) (request : InboundRequest) :
    List (InboundResource × List InboundResource) :=
  match request.reservation with
  | none => []
  | some (lane, bytes) =>
    let floor := request.charge.opening.filter fun (introducer, bytes) =>
      !l.open_.withinFloor introducer bytes && l.open_.fitsFloor introducer bytes
    (if l.state.reservationCovers lane bytes mailboxLimits then []
      else [(.lane lane, [.shared])]) ++
      (floor.map fun (introducer, _) =>
        (InboundResource.floor introducer, [InboundResource.openPool])).toList

/-- The resources of the refusing budget. -/
def refused (request : InboundRequest) : InboundRefusal → List InboundResource
  | .peer => [.peer request.peer]
  | .mailbox =>
    (request.reservation.map fun (lane, _) => InboundResource.lane lane).toList ++ [.shared]
  | .open_ => [.openPool]

/-- Admit `request`, or name the exhausted resources of its footprint that refused it. -/
def tryAdmit (l : InboundLedger) (request : InboundRequest) :
    InboundLedger × Except (List InboundResource) (Option HeldCharge) :=
  match l.tryReserve request with
  | (l', .error refusal) => (l', .error (refused request refusal))
  | (l', .ok held) => (l', .ok held)

end InboundLedger

/-! ### The charges of the mailbox -/

/-- Why the ledger changed. -/
inductive LedgerCause where
  | admission (request : InboundRequest)
  | closed (charge : HeldCharge)
  | dropped (charge : HeldCharge)

/-- The resources a release names to the waiting arrivals. -/
def LedgerCause.names : LedgerCause → List InboundResource
  | .admission _ => []
  | .closed charge => .openPool :: (charge.open_.map InboundResource.floor).toList
  | .dropped charge => charge.freed

/-- One change of the ledger. -/
structure LedgerEvent where
  before : InboundLedger
  cause : LedgerCause
  after : InboundLedger

/-- The inbound capacity one admitted event holds: none for a covered arrival, or once taken. -/
structure InboundCapacityPermit where
  held : Option HeldCharge

/-- The budgets, the permits of the events not yet handled and the charges moved into the
messages still open. -/
structure InboundMailbox where
  ledger : InboundLedger
  permits : List InboundCapacityPermit
  messages : List HeldCharge

inductive InboundOp where
  /-- An arrival is admitted at once, or refused. -/
  | reserve (request : InboundRequest)
  /-- The event of a permit is handled. -/
  | dropPermit (i : ℕ)
  /-- The charge of a permit moves into the message its first chunk opens. -/
  | take (i : ℕ)
  /-- The charge of a completed message moves onto a permit; none when nothing completed. -/
  | restore (i : ℕ) (message : Option ℕ)
  /-- A message expires. -/
  | dropMessage (j : ℕ)

namespace InboundMailbox

def new : InboundMailbox := ⟨.new, [], []⟩

/-- Drop what a permit holds. -/
def dropHeld (l : InboundLedger) (held : Option HeldCharge) : InboundLedger × List LedgerEvent :=
  match held with
  | none => (l, [])
  | some charge => (l.drop charge, [⟨l, .dropped charge, l.drop charge⟩])

/-- Close the message of `charge`, if it is still open. -/
def closeHeld (l : InboundLedger) (charge : HeldCharge) :
    InboundLedger × HeldCharge × List LedgerEvent :=
  match charge.open_ with
  | none => (l, charge, [])
  | some _ => ((l.close charge).1, (l.close charge).2, [⟨l, .closed charge, (l.close charge).1⟩])

/-- Reserve `request`, if it is within its bounds. -/
def reserve (m : InboundMailbox) (request : InboundRequest) : InboundMailbox × List LedgerEvent :=
  match request.validate with
  | .error _ => (m, [])
  | .ok () =>
    match m.ledger.tryAdmit request with
    | (l, .error _) => ({ m with ledger := l }, [])
    | (l, .ok held) =>
      ({ m with ledger := l, permits := m.permits ++ [⟨held⟩] }, [⟨m.ledger, .admission request, l⟩])

/-- Put the charge of a completed message on permit `i`: the message leaves the table of open
messages, and what the permit held before is dropped. -/
def restore (m : InboundMailbox) (i : ℕ) (message : Option ℕ) :
    InboundMailbox × List LedgerEvent :=
  match m.permits[i]? with
  | none => (m, [])
  | some permit =>
    match message with
    | none =>
      let (l, dropped) := dropHeld m.ledger permit.held
      ({ m with ledger := l, permits := m.permits.set i ⟨none⟩ }, dropped)
    | some j =>
      match m.messages[j]? with
      | none => (m, [])
      | some charge =>
        let (l, charge, closed) := closeHeld m.ledger charge
        let (l', dropped) := dropHeld l permit.held
        (⟨l', m.permits.set i ⟨some charge⟩, m.messages.eraseIdx j⟩, closed ++ dropped)

def act (m : InboundMailbox) : InboundOp → InboundMailbox × List LedgerEvent
  | .reserve request => m.reserve request
  | .dropPermit i =>
    match m.permits[i]? with
    | none => (m, [])
    | some permit =>
      let (l, dropped) := dropHeld m.ledger permit.held
      ({ m with ledger := l, permits := m.permits.eraseIdx i }, dropped)
  | .take i =>
    match m.permits[i]? with
    | none => (m, [])
    | some permit =>
      ({ m with
          permits := m.permits.set i ⟨none⟩
          messages := m.messages ++ permit.held.toList }, [])
  | .restore i message => m.restore i message
  | .dropMessage j =>
    match m.messages[j]? with
    | none => (m, [])
    | some charge =>
      let (l, dropped) := dropHeld m.ledger (some charge)
      ({ m with ledger := l, messages := m.messages.eraseIdx j }, dropped)

def run (m : InboundMailbox) (ops : List InboundOp) : InboundMailbox :=
  ops.foldl (fun m op => (m.act op).1) m

/-- The charges that are live. -/
def live (m : InboundMailbox) : Multiset HeldCharge :=
  (m.permits.filterMap InboundCapacityPermit.held : Multiset HeldCharge) + (m.messages : Multiset _)

end InboundMailbox

end Rings.Inbound
