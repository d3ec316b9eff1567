import Rings.ReplayWindow
import Mathlib.Data.List.Rotate
import Mathlib.Logic.Function.Basic

/-!
The outbound lanes of one peer.

Each class has a lane: a window of transfers in flight and a backlog behind it. A transfer sends a
frame, waits for its delivery, and sends the next; a transfer behind it starts once its last frame
is in flight. Control goes first, but only for a burst while a lower class could run, and the
lower classes take turns.
-/

namespace Rings.Outbound

abbrev TransferClass := MessageCategory

/-- Control frames admitted in a row while a lower class waits. -/
def outboundControlBurst : ℕ := 4

/-- The classes below control, in their round-robin order. -/
def lowerClasses : List TransferClass := [.storage, .e2e, .application]

def classes : List TransferClass := .dhtControl :: lowerClasses

lemma mem_classes (c : TransferClass) : c ∈ classes := by
  cases c <;> decide

/-- Whether an admitted frame was its transfer's last. -/
inductive FrameRemainder where
  | final
  | more
deriving DecidableEq

/-- State of a transfer that holds a window slot. -/
inductive SlotState (T : Type*) where
  /-- Ready for its next frame, `fresh` until its first. -/
  | runnable (item : T) (fresh : Bool)
  /-- Taken by the worker. -/
  | sending
  | waiting (delivery : ℕ) (remainder : FrameRemainder) (item : T)

namespace SlotState

variable {T : Type*}

def waitsOn (state : SlotState T) (delivery : ℕ) : Bool :=
  match state with
  | waiting awaited _ _ => awaited = delivery
  | _ => false

/-- Frames remain while one is in flight, so a fresh transfer behind must not start. -/
def holdsTheWire : SlotState T → Bool
  | waiting _ .more _ => true
  | _ => false

def item? : SlotState T → Option T
  | runnable item _ => some item
  | sending => none
  | waiting _ _ item => some item

end SlotState

/-! ### One lane -/

structure TransferLane (T : Type*) where
  /-- Transfers in flight in the order of admission, each with its slot token. -/
  slots : List (ℕ × SlotState T)
  queued : List T
  nextSlot : ℕ

namespace TransferLane

variable {T : Type*}

def empty : TransferLane T := ⟨[], [], 0⟩

variable (lane : TransferLane T)

/-- Move queued transfers into free slots, oldest first. -/
def refillFrom (window : ℕ) (slots : List (ℕ × SlotState T)) (nextSlot : ℕ) :
    List T → TransferLane T
  | [] => ⟨slots, [], nextSlot⟩
  | item :: queued =>
    if slots.length < window then
      refillFrom window (slots ++ [(nextSlot, .runnable item true)]) ((nextSlot + 1) % 2 ^ 64) queued
    else ⟨slots, item :: queued, nextSlot⟩

def refill (window : ℕ) : TransferLane T := refillFrom window lane.slots lane.nextSlot lane.queued

def enqueue (item : T) (window : ℕ) : TransferLane T :=
  { lane with queued := lane.queued ++ [item] }.refill window

/-- The oldest slot that may admit a frame: a runnable one, unless it is fresh and an earlier
transfer holds the wire. -/
def runnablePositionFrom (wireHeld : Bool) : List (ℕ × SlotState T) → Option ℕ
  | [] => none
  | (_, .runnable _ false) :: _ => some 0
  | (_, .runnable _ true) :: slots =>
    if !wireHeld then some 0 else (runnablePositionFrom wireHeld slots).map (· + 1)
  | (_, state) :: slots =>
    (runnablePositionFrom (wireHeld || state.holdsTheWire) slots).map (· + 1)

def runnablePosition : Option ℕ := runnablePositionFrom false lane.slots

def isRunnable : Bool := lane.runnablePosition.isSome

/-- Take the oldest runnable transfer, leaving its slot sending. -/
def takeRunnable : Option ((ℕ × T) × TransferLane T) :=
  lane.runnablePosition.bind fun position =>
    match lane.slots[position]? with
    | some (slot, .runnable item _) =>
      some ((slot, item), { lane with slots := lane.slots.set position (slot, .sending) })
    | _ => none

/-- Change the first slot of token `slot` if it is sending. -/
def resumeSlot (slot : ℕ) (next : SlotState T) : List (ℕ × SlotState T) → List (ℕ × SlotState T)
  | [] => []
  | (token, state) :: slots =>
    if token = slot then
      (match state with
      | .sending => (token, next)
      | state => (token, state)) :: slots
    else (token, state) :: resumeSlot slot next slots

/-- Park a sent transfer on its frame's delivery. -/
def waitForDelivery (slot delivery : ℕ) (remainder : FrameRemainder) (item : T) : TransferLane T :=
  { lane with slots := resumeSlot slot (.waiting delivery remainder item) lane.slots }

/-- Return a sending transfer to its slot, ready for its next frame. -/
def makeRunnable (slot : ℕ) (item : T) : TransferLane T :=
  { lane with slots := resumeSlot slot (.runnable item false) lane.slots }

/-- Take the transfer waiting on `delivery`, leaving its slot sending. -/
def takeWaitingFrom (delivery : ℕ) :
    List (ℕ × SlotState T) → Option ((ℕ × T) × List (ℕ × SlotState T))
  | [] => none
  | (slot, state) :: slots =>
    if state.waitsOn delivery then
      state.item?.map fun item => ((slot, item), (slot, .sending) :: slots)
    else (takeWaitingFrom delivery slots).map fun taken => (taken.1, (slot, state) :: taken.2)

def takeWaiting (delivery : ℕ) : Option ((ℕ × T) × TransferLane T) :=
  (takeWaitingFrom delivery lane.slots).map fun taken =>
    (taken.1, { lane with slots := taken.2 })

/-- Release the slot of a finished transfer. -/
def finish (slot window : ℕ) : TransferLane T :=
  { lane with slots := lane.slots.filter fun entry => entry.1 ≠ slot }.refill window

/-- Every transfer the lane owns; a sending slot's is the worker's. -/
def drainTransfers : List T × TransferLane T :=
  (lane.slots.filterMap (fun entry => entry.2.item?) ++ lane.queued,
    { lane with slots := [], queued := [] })

/-- The transfer of a runnable slot the predicate matches. -/
def removable (p : T → Bool) : SlotState T → Option T
  | .runnable item _ => if p item then some item else none
  | _ => none

/-- Remove the queued and runnable transfers the predicate matches. -/
def removeReadyWhere (p : T → Bool) (window : ℕ) : List T × TransferLane T :=
  (lane.queued.filter p ++ lane.slots.filterMap fun entry => removable p entry.2,
    { lane with
      queued := lane.queued.filter fun item => !p item
      slots := lane.slots.filter fun entry => (removable p entry.2).isNone }.refill window)

end TransferLane

/-! ### The lanes of a peer -/

/-- A transfer taken from its lane's window, with the slot it holds. -/
structure RunnableTransfer (T : Type*) where
  class_ : TransferClass
  slot : ℕ
  item : T

structure TransferQueues (T : Type*) where
  lanes : TransferClass → TransferLane T
  lowerCursor : ℕ
  consecutiveControl : ℕ
  window : ℕ

namespace TransferQueues

variable {T : Type*}

def withWindow (window : ℕ) : TransferQueues T := ⟨fun _ => .empty, 0, 0, window⟩

variable (q : TransferQueues T)

def setLane (c : TransferClass) (lane : TransferLane T) : TransferQueues T :=
  { q with lanes := Function.update q.lanes c lane }

def push (c : TransferClass) (item : T) : TransferQueues T :=
  q.setLane c ((q.lanes c).enqueue item q.window)

/-- The next lower class from the cursor that `runnable` admits. -/
def nextLowerClass (runnable : TransferClass → Bool) : Option TransferClass :=
  (lowerClasses.rotate q.lowerCursor).find? runnable

/-- The class the next frame is admitted from. -/
def selected (credited : TransferClass → Bool) : Option TransferClass :=
  let runnable := fun c => credited c && (q.lanes c).isRunnable
  let hasLower := lowerClasses.any runnable
  if runnable .dhtControl && (q.consecutiveControl < outboundControlBurst || !hasLower) then
    some .dhtControl
  else q.nextLowerClass runnable

/-- Take the next transfer to admit a frame, among the classes that hold a credit. -/
def pop (credited : TransferClass → Bool) : Option (RunnableTransfer T × TransferQueues T) :=
  (q.selected credited).bind fun c =>
    (q.lanes c).takeRunnable.map fun taken =>
      (⟨c, taken.1.1, taken.1.2⟩, q.setLane c taken.2)

def waitForDelivery (delivery : ℕ) (remainder : FrameRemainder) (t : RunnableTransfer T) :
    TransferQueues T :=
  q.setLane t.class_ ((q.lanes t.class_).waitForDelivery t.slot delivery remainder t.item)

def takeWaiting (c : TransferClass) (delivery : ℕ) :
    Option (RunnableTransfer T × TransferQueues T) :=
  ((q.lanes c).takeWaiting delivery).map fun taken =>
    (⟨c, taken.1.1, taken.1.2⟩, q.setLane c taken.2)

def makeRunnable (t : RunnableTransfer T) : TransferQueues T :=
  q.setLane t.class_ ((q.lanes t.class_).makeRunnable t.slot t.item)

/-- Charge a class one scheduling turn. -/
def advanceFairness (c : TransferClass) : TransferQueues T :=
  if c = .dhtControl then
    { q with consecutiveControl := saturatingAdd usizeMax q.consecutiveControl 1 }
  else
    { q with
      consecutiveControl := 0
      lowerCursor :=
        match lowerClasses.findIdx? fun candidate => candidate = c with
        | some index => (index + 1) % lowerClasses.length
        | none => q.lowerCursor }

def recordFrameAdmitted (c : TransferClass) : TransferQueues T := q.advanceFairness c

/-- Release a finished transfer's slot to the next queued transfer of its lane. -/
def finishTransfer (t : RunnableTransfer T) : TransferQueues T :=
  q.setLane t.class_ ((q.lanes t.class_).finish t.slot q.window)

/-- Release a failed transfer's slot, charging its lane one turn. -/
def failAttempt (t : RunnableTransfer T) : TransferQueues T :=
  (q.advanceFairness t.class_).finishTransfer t

def drainTransfers : List T × TransferQueues T :=
  (classes.flatMap fun c => (q.lanes c).drainTransfers.1,
    { q with lanes := fun c => (q.lanes c).drainTransfers.2 })

def removeReadyWhere (p : T → Bool) : List T × TransferQueues T :=
  (classes.flatMap fun c => ((q.lanes c).removeReadyWhere p q.window).1,
    { q with lanes := fun c => ((q.lanes c).removeReadyWhere p q.window).2 })

end TransferQueues

/-! ### The worker -/

/-- A queued transfer: its place in the order of pushes, and the frames it has yet to admit. -/
structure QueuedTransfer where
  id : ℕ
  frames : ℕ
deriving DecidableEq

/-- Whether frames remain after those already admitted. -/
def QueuedTransfer.remainder (t : QueuedTransfer) : FrameRemainder :=
  if t.frames = 0 then .final else .more

/-- A frame whose delivery has not settled. -/
structure FrameInFlight where
  class_ : TransferClass
  delivery : ℕ
  id : ℕ
deriving DecidableEq

/-- The queues under a worker, which holds at most one popped transfer, and what it did. -/
structure OutboundWorker where
  ready : TransferQueues QueuedTransfer
  active : Option (RunnableTransfer QueuedTransfer)
  nextId : ℕ
  deliveries : List FrameInFlight
  /-- The frames admitted, by class and transfer. -/
  admitted : List (TransferClass × ℕ)
  /-- The turns charged: admitted frames and failed attempts. -/
  turns : List TransferClass
  /-- The transfers handed back. -/
  handedBack : List QueuedTransfer

/-- The operations a worker issues on its queues. -/
inductive WorkerStep where
  | push (c : TransferClass) (frames : ℕ)
  | pop (credited : TransferClass → Bool)
  /-- The popped transfer admits its next frame and waits for its delivery. -/
  | admitFrame (delivery : ℕ)
  | finish
  | fail
  /-- The delivery at `index` settled: the transfer goes on, or ends. -/
  | delivered (index : ℕ)
  | terminated (index : ℕ)
  | cancel (p : QueuedTransfer → Bool)
  | shutdown

namespace OutboundWorker

def new (window : ℕ) : OutboundWorker := ⟨.withWindow window, none, 0, [], [], [], []⟩

variable (s : OutboundWorker)

def enqueueTransfer (c : TransferClass) (frames : ℕ) : OutboundWorker :=
  { s with ready := s.ready.push c ⟨s.nextId, frames⟩, nextId := s.nextId + 1 }

def pop (credited : TransferClass → Bool) : OutboundWorker :=
  match s.active with
  | some _ => s
  | none =>
    match s.ready.pop credited with
    | none => s
    | some (t, ready) => { s with ready := ready, active := some t }

/-- The popped transfer admits a frame, under a delivery no frame of its class in flight has. -/
def admitFrame (delivery : ℕ) : OutboundWorker :=
  match s.active with
  | none => s
  | some t =>
    if t.item.frames = 0 ∨ s.deliveries.any (fun d => d.class_ = t.class_ ∧ d.delivery = delivery)
    then s
    else
      let sent : QueuedTransfer := ⟨t.item.id, t.item.frames - 1⟩
      { s with
        ready := (s.ready.recordFrameAdmitted t.class_).waitForDelivery delivery sent.remainder
          { t with item := sent }
        active := none
        deliveries := s.deliveries ++ [⟨t.class_, delivery, t.item.id⟩]
        admitted := s.admitted ++ [(t.class_, t.item.id)]
        turns := s.turns ++ [t.class_] }

def finish : OutboundWorker :=
  match s.active with
  | none => s
  | some t =>
    { s with
      ready := s.ready.finishTransfer t
      active := none
      handedBack := s.handedBack ++ [t.item] }

def fail : OutboundWorker :=
  match s.active with
  | none => s
  | some t =>
    { s with
      ready := s.ready.failAttempt t
      active := none
      turns := s.turns ++ [t.class_]
      handedBack := s.handedBack ++ [t.item] }

def delivered (index : ℕ) : OutboundWorker :=
  match s.deliveries[index]? with
  | none => s
  | some d =>
    let s := { s with deliveries := s.deliveries.eraseIdx index }
    match s.ready.takeWaiting d.class_ d.delivery with
    | none => s
    | some (t, ready) => { s with ready := ready.makeRunnable t }

def terminated (index : ℕ) : OutboundWorker :=
  match s.deliveries[index]? with
  | none => s
  | some d =>
    let s := { s with deliveries := s.deliveries.eraseIdx index }
    match s.ready.takeWaiting d.class_ d.delivery with
    | none => s
    | some (t, ready) =>
      { s with ready := ready.finishTransfer t, handedBack := s.handedBack ++ [t.item] }

def cancel (p : QueuedTransfer → Bool) : OutboundWorker :=
  let (removed, ready) := s.ready.removeReadyWhere p
  { s with ready := ready, handedBack := s.handedBack ++ removed }

def shutdown : OutboundWorker :=
  let (drained, ready) := s.ready.drainTransfers
  { s with
    ready := ready
    active := none
    handedBack := s.handedBack ++ (s.active.map RunnableTransfer.item).toList ++ drained }

def step : WorkerStep → OutboundWorker
  | .push c frames => s.enqueueTransfer c frames
  | .pop credited => s.pop credited
  | .admitFrame delivery => s.admitFrame delivery
  | .finish => s.finish
  | .fail => s.fail
  | .delivered index => s.delivered index
  | .terminated index => s.terminated index
  | .cancel p => s.cancel p
  | .shutdown => s.shutdown

/-- The worker after `steps`. -/
def run (window : ℕ) (steps : List WorkerStep) : OutboundWorker := steps.foldl step (new window)

end OutboundWorker

end Rings.Outbound
