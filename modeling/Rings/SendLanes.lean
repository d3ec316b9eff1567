import Rings.PeerQuota
import Rings.SendSchedule
import Mathlib.Data.List.Destutter

/-!
The queue algebra of every onion link: lanes, their queues, and the emitter's next step.

A wake-up channel is a number: the sender's end is queued in the state, and `alive` says whether
the receiver's end was dropped.
-/

namespace Rings.Onion

/-- Most cells queued for all links together. -/
def maxPendingOnionSends : ℕ := 1024

def maxPendingOnionSendsPerPeer : ℕ := 128

def maxPendingOnionSendBytes : ℕ := 64 * 1024 * 1024

def maxPendingOnionSendBytesPerPeer : ℕ := 16 * 1024 * 1024

/-- The places and the bytes of one lane that relays may hold while an endpoint waits: half. -/
def relayShareCells : ℕ := maxPendingOnionSendsPerPeer / 2
def relayShareBytes : ℕ := maxPendingOnionSendBytesPerPeer / 2

structure Queued (T : Type) where
  item : T
  class_ : OnionLoopClass
  relayed : Bool
  deriving DecidableEq

structure RelayShare where
  cells : ℕ
  bytes : ℕ
  deriving DecidableEq

namespace RelayShare

def wouldExceedHalf (r : RelayShare) (bytes : ℕ) : Bool :=
  r.cells ≥ relayShareCells || saturatingAdd usizeMax r.bytes bytes > relayShareBytes

def «with» (r : RelayShare) (bytes : ℕ) : RelayShare :=
  ⟨saturatingAdd usizeMax r.cells 1, saturatingAdd usizeMax r.bytes bytes⟩

def without (r : RelayShare) (bytes : ℕ) : RelayShare := ⟨r.cells - 1, r.bytes - bytes⟩

end RelayShare

structure InFlight where
  class_ : OnionLoopClass
  relayed : Bool
  deriving DecidableEq

structure PeerLane (T : Type) where
  epoch : BitVec 64
  queued : List (Queued T)
  pendingBytes : ℕ
  inFlight : Option InFlight
  relayed : RelayShare
  class_ : OnionLoopClass
  clock : LinkClock
  /-- The emitter waits, with its wake-up armed. -/
  wake : Bool

def PeerLane.new {T : Type} (epoch : BitVec 64) : PeerLane T :=
  ⟨epoch, [], 0, none, ⟨0, 0⟩, .default, .default, false⟩

inductive Emission (T : Type)
  | real (item : T)
  | cover (class_ : OnionLoopClass)
  deriving DecidableEq

inductive EmitterStep (T : Type)
  | emit (emission : Emission T)
  | wait (dueUs : ℕ)
  | waitCredit
  | stop
  deriving DecidableEq

/-- Who queues a cell. An endpoint is `holding` when it retries after a wake-up and hands back the
place it held. -/
inductive QueueRole
  | relay
  | local
  | endpoint (holding : Bool)
  deriving DecidableEq

structure Refusal (T : Type) where
  reason : OnionQueueAdmissionReason
  item : T
  space : Option ℕ
  deriving DecidableEq

structure OrderedSendState (T : Type) where
  quota : PeerQuota
  pendingBytes : ℕ
  lanes : BTreeMap Did (PeerLane T)
  nextEpoch : BitVec 64
  /-- The wake-ups of the endpoints waiting for space, in arrival order. -/
  space : BTreeMap Did (List ℕ)
  /-- The endpoints waiting for, or retrying into, each lane. -/
  waiting : BTreeMap Did ℕ
  /-- The clocks of closed lanes. -/
  retired : BTreeMap Did LinkClock
  shut : Bool

namespace OrderedSendState

variable {T : Type}

def default : OrderedSendState T :=
  ⟨.new maxPendingOnionSends maxPendingOnionSendsPerPeer, 0, .empty, 0, .empty, .empty, .empty,
    false⟩

/-- The lane of `peer`, if its emitter is the one of `epoch`. -/
def laneAt (s : OrderedSendState T) (peer : Did) (epoch : BitVec 64) : Option (PeerLane T) :=
  (s.lanes.get? peer).filter (·.epoch = epoch)

def setLane (s : OrderedSendState T) (peer : Did) (lane : PeerLane T) : OrderedSendState T :=
  { s with lanes := s.lanes.insert peer lane }

def pruneRetired (s : OrderedSendState T) (nowUs : ℕ) : OrderedSendState T :=
  { s with retired := s.retired.retain fun _ clock =>
      clock.lastStart.any fun start => start.1 + windowUs > nowUs }

/-- Give the link to `peer` a lane, with the clock it had if it closed within the window, and
return the epoch of the emitter to spawn if it had none. -/
def openLane (s : OrderedSendState T) (peer : Did) (nowUs : ℕ) :
    OrderedSendState T × Option (BitVec 64) :=
  if s.shut then (s, none)
  else
    let s := s.pruneRetired nowUs
    let clock := (s.retired.get? peer).getD .default
    let s := { s with retired := s.retired.remove peer }
    match s.lanes.get? peer with
    | some _ => (s, none)
    | none =>
      let fresh := { PeerLane.new s.nextEpoch with clock := clock }
      ({ s with nextEpoch := s.nextEpoch + 1, lanes := s.lanes.insert peer fresh },
        some s.nextEpoch)

/-- The endpoints counted for `peer`'s lane. -/
def waitingFor (s : OrderedSendState T) (peer : Did) : ℕ := (s.waiting.get? peer).getD 0

def relayYields (s : OrderedSendState T) (peer : Did) (itemBytes : ℕ) : Bool :=
  (s.waiting.get? peer).any (0 < ·) &&
    (s.lanes.get? peer).any (·.relayed.wouldExceedHalf itemBytes)

/-- Reserve the quota and bytes of one cell for `peer`'s up lane. -/
def tryAdmit (s : OrderedSendState T) (peer : Did) (itemBytes : ℕ) :
    Except OnionQueueAdmissionReason (OrderedSendState T) :=
  match s.lanes.get? peer with
  | none => .error .linkDown
  | some lane =>
    match s.quota.canReserve peer with
    | .error reason => .error reason
    | .ok () =>
      match checkedAdd usizeMax lane.pendingBytes itemBytes,
        checkedAdd usizeMax s.pendingBytes itemBytes with
      | some nextPeerBytes, some nextPendingBytes =>
        if nextPendingBytes > maxPendingOnionSendBytes then .error .globalFull
        else if nextPeerBytes > maxPendingOnionSendBytesPerPeer then .error .peerFull
        else
          (s.quota.reserve peer).map fun quota =>
            { s with
              quota := quota
              pendingBytes := nextPendingBytes
              lanes := s.lanes.insert peer { lane with pendingBytes := nextPeerBytes } }
      | _, _ => .error .counterOverflow

/-- Register the endpoint with wake-up `waiter` as waiting for `peer`'s lane. -/
def register (s : OrderedSendState T) (peer : Did) (waiter : ℕ) : OrderedSendState T :=
  { s with
    space := s.space.insert peer ((s.space.get? peer).getD [] ++ [waiter])
    waiting := s.waiting.insert peer (s.waitingFor peer + 1) }

/-- An endpoint no longer waits for `peer`'s lane. -/
def leave (s : OrderedSendState T) (peer : Did) : OrderedSendState T :=
  match s.waiting.get? peer with
  | none => s
  | some count =>
    if count - 1 = 0 then { s with waiting := s.waiting.remove peer }
    else { s with waiting := s.waiting.insert peer (count - 1) }

/-- Queue one cell for `peer`; an endpoint refused by a full bound is registered under the wake-up
`waiter`. -/
def enqueue (s : OrderedSendState T) (peer : Did) (item : T) (class_ : OnionLoopClass) (nowUs : ℕ)
    (role : QueueRole) (waiter : ℕ) : OrderedSendState T × Except (Refusal T) Unit :=
  let itemBytes := class_.cellBytes
  if role = .relay ∧ s.relayYields peer itemBytes then (s, .error ⟨.peerFull, item, none⟩)
  else
    let s := if role = .endpoint true then s.leave peer else s
    match s.tryAdmit peer itemBytes with
    | .error reason =>
      let waits := (role = .endpoint true ∨ role = .endpoint false) ∧ reason.isFull
      if waits then (s.register peer waiter, .error ⟨reason, item, some waiter⟩)
      else (s, .error ⟨reason, item, none⟩)
    | .ok s =>
      match s.lanes.get? peer with
      | none => (s, .error ⟨.linkDown, item, none⟩)
      | some lane =>
        let relayed := decide (role = .relay)
        (s.setLane peer
          { lane with
            relayed := if relayed then lane.relayed.with itemBytes else lane.relayed
            queued := lane.queued ++ [⟨item, class_, relayed⟩]
            class_ := class_
            clock := { lane.clock with lastRealUs := some nowUs }
            wake := false }, .ok ())

/-! ### Waking an endpoint -/

/-- A waiter that is gone abandoned its place. -/
def forgetWaiter (s : OrderedSendState T) (peer : Did) : OrderedSendState T :=
  match s.waiting.get? peer with
  | none => s
  | some count => { s with waiting := s.waiting.insert peer (count - 1) }

/-- Take waiters off the queue of `peer` until one is woken. -/
def popWaiter (alive : ℕ → Bool) (s : OrderedSendState T) (peer : Did) :
    List ℕ → OrderedSendState T × Option ℕ
  | [] => ({ s with space := s.space.remove peer }, none)
  | waiter :: queue =>
    if alive waiter then ({ s with space := s.space.insert peer queue }, some waiter)
    else popWaiter alive (s.forgetWaiter peer) peer queue

/-- Try the lanes of `candidates` in turn. -/
def wakeFirst (alive : ℕ → Bool) (s : OrderedSendState T) :
    List Did → OrderedSendState T × Option ℕ
  | [] => (s, none)
  | candidate :: candidates =>
    match s.space.get? candidate with
    | none => s.wakeFirst alive candidates
    | some queue =>
      match s.popWaiter alive candidate queue with
      | (s, some waiter) => (s, some waiter)
      | (s, none) => s.wakeFirst alive candidates

/-- The lane of `peer`, then every other lane that has waiters, in the order of the table. -/
def candidates (s : OrderedSendState T) (order : List Did) (peer : Did) : List Did :=
  (peer :: order.filter fun other =>
    (s.space.get? other).isSome && decide (other ≠ peer)).destutter (· ≠ ·)

/-- Wake one waiter for a place freed on `peer`'s lane, else one waiting for another lane. -/
def wakeOne (alive : ℕ → Bool) (order : List Did) (s : OrderedSendState T) (peer : Did) :
    OrderedSendState T × Option ℕ :=
  s.wakeFirst alive (s.candidates order peer)

/-! ### The emitter -/

/-- The next step of the emitter of `epoch`. While a real cell is in flight nothing is taken from
the queue. -/
def next (s : OrderedSendState T) (peer : Did) (epoch : BitVec 64) (floor : OnionIdleFloor)
    (credited : Bool) (nowUs : ℕ) : OrderedSendState T × EmitterStep T :=
  match s.laneAt peer epoch with
  | none => (s, .stop)
  | some lane =>
    let queued := !lane.queued.isEmpty || lane.inFlight.isSome
    match plan lane.clock queued credited floor nowUs with
    | .waitUntil dueUs => (s.setLane peer { lane with wake := true }, .wait dueUs)
    | .waitCredit => (s.setLane peer { lane with wake := true }, .waitCredit)
    | .emit =>
      match lane.inFlight, lane.queued with
      | none, head :: queue =>
        (s.setLane peer
          { lane with
            queued := queue
            inFlight := some ⟨head.class_, head.relayed⟩
            clock := { lane.clock with lastStart := some (nowUs, head.class_.units) } },
          .emit (.real head.item))
      | _, _ =>
        (s.setLane peer
          { lane with clock := { lane.clock with lastStart := some (nowUs, lane.class_.units) } },
          .emit (.cover lane.class_))

def requeue (s : OrderedSendState T) (peer : Did) (epoch : BitVec 64) (item : T) :
    OrderedSendState T × Bool :=
  match s.laneAt peer epoch with
  | none => (s, false)
  | some lane =>
    match lane.inFlight with
    | none => (s, false)
    | some flight =>
      (s.setLane peer
        { lane with
          inFlight := none
          queued := ⟨item, flight.class_, flight.relayed⟩ :: lane.queued }, true)

/-- Retire the cell in flight, releasing its quota and bytes, and wake one waiter. -/
def complete (alive : ℕ → Bool) (order : List Did) (s : OrderedSendState T) (peer : Did)
    (epoch : BitVec 64) : OrderedSendState T × Option ℕ :=
  match s.laneAt peer epoch with
  | none => (s, none)
  | some lane =>
    match lane.inFlight with
    | none => (s, none)
    | some flight =>
      let bytes := flight.class_.cellBytes
      let relayed := if flight.relayed then lane.relayed.without bytes else lane.relayed
      let lane := { lane with inFlight := none, relayed := relayed }
      let s :=
        match s.quota.release peer with
        | (quota, true) =>
          { s with
            quota := quota
            pendingBytes := s.pendingBytes - bytes
            lanes := s.lanes.insert peer { lane with pendingBytes := lane.pendingBytes - bytes } }
        | (quota, false) => { s with quota := quota, lanes := s.lanes.insert peer lane }
      s.wakeOne alive order peer

/-- Drop the lane of `peer` and every queued cell, keep its clock, and wake every endpoint waiting
for it and one waiting for another lane. -/
def close (alive : ℕ → Bool) (order : List Did) (s : OrderedSendState T) (peer : Did)
    (nowUs : ℕ) : OrderedSendState T × List ℕ × List T :=
  match s.lanes.get? peer with
  | none => (s, [], [])
  | some lane =>
    let s := { s with lanes := s.lanes.remove peer }
    let s := s.pruneRetired nowUs
    let s :=
      { s with
        retired := s.retired.insert peer lane.clock
        quota := (s.quota.releasePeer peer).1
        pendingBytes := s.pendingBytes - lane.pendingBytes }
    let woken := ((s.space.get? peer).getD []).filter alive
    let s := { s with space := s.space.remove peer }
    let (s, other) := s.wakeOne alive order peer
    (s, woken ++ other.toList, lane.queued.map Queued.item)

/-- The links whose lanes are not in `up`. -/
def lanesOutside (s : OrderedSendState T) (up : List Did) : List Did :=
  (s.lanes.entries.map Prod.fst).filter (· ∉ up)

end OrderedSendState

end Rings.Onion
