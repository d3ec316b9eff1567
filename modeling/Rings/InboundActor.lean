import Rings.Reassembly
import Mathlib.Logic.Function.Basic

/-!
The inbound actor of one connection.

A frame takes a ticket, which orders it, before it is decoded, and commits it or drops it after.
The actor runs one event of each lane at a time, in ticket order. Chunks share a lane of their
own; a message they complete enters the lane of its category at the sequence of the chunk that
completed it, so a frame of a category waits for every earlier chunk of that category still
unfinished.
-/

namespace Rings.Inbound

open Chunks

inductive InboundLane where
  | dhtControl
  | storage
  | e2e
  | application
  | reassembly

namespace InboundLane

def index : InboundLane → ℕ
  | dhtControl => 0
  | storage => 1
  | e2e => 2
  | application => 3
  | reassembly => MessageCategory.count

lemma index_injective : Function.Injective index := by
  intro a b h
  cases a <;> cases b <;> first | rfl | exact absurd h (by decide)

instance linearOrder : LinearOrder InboundLane := LinearOrder.lift' index index_injective

def all : List InboundLane := [dhtControl, storage, e2e, application, reassembly]

lemma mem_all (lane : InboundLane) : lane ∈ all := by
  cases lane <;> decide

lemma nodup_all : all.Nodup := by decide

def fromClass : MessageCategory → InboundLane
  | .dhtControl => dhtControl
  | .storage => storage
  | .e2e => e2e
  | .application => application

/-- The message class the lane carries, unknown for the reassembly lane. -/
def class? : InboundLane → Option MessageCategory
  | dhtControl => some .dhtControl
  | storage => some .storage
  | e2e => some .e2e
  | application => some .application
  | reassembly => none

/-- The lane of the class whose channel lane is `carrier`, or the reassembly lane. -/
def ofCarrier (carrier : Option ChannelLane) : InboundLane :=
  (all.find? fun lane => lane.class?.any fun c => some (channelLane c) = carrier).getD reassembly

/-- The category an event of this lane that arrived on `carrier` is ordered in. -/
def category (lane : InboundLane) (carrier : Option ChannelLane) : InboundLane :=
  match lane with
  | reassembly => ofCarrier carrier
  | lane => lane

/-- Whether a frame of this lane may have arrived on `carrier`. -/
def admitsCarrier (lane : InboundLane) (carrier : Option ChannelLane) : Bool :=
  match lane.class?, carrier with
  | some c, some carrier => channelLane c = carrier
  | _, _ => true

/-- The lane-mismatch refusal holds a message to the category of the chunk that completed it. -/
lemma category_of_admitsCarrier {lane : InboundLane} {carrier : Option ChannelLane}
    (h : lane.admitsCarrier carrier) (hlane : lane ≠ reassembly) :
    reassembly.category carrier = lane ∨ reassembly.category carrier = reassembly := by
  rcases carrier with _ | carrier
  · exact Or.inr (by decide)
  · left
    cases lane <;> simp only [admitsCarrier, class?, decide_eq_true_eq] at h
    case reassembly => exact absurd rfl hlane
    all_goals
      subst h
      decide

end InboundLane

open InboundLane

/-! ### Messages -/

/-- A decoded message: a chunk, or a message of one traffic class. -/
inductive Message (M : Type*) where
  | chunk (chunk : Chunk)
  | logical (class_ : MessageCategory) (message : M)

/-- The lane of a message: the reassembly lane for a chunk, else that of its class. -/
def Message.lane {M : Type*} : Message M → InboundLane
  | chunk _ => .reassembly
  | logical c _ => .fromClass c

lemma Message.lane_logical_ne {M : Type*} (c : MessageCategory) (m : M) :
    (Message.logical c m).lane ≠ .reassembly := by
  cases c <;> exact fun h => InboundLane.noConfusion h

structure InboundEvent (M : Type*) where
  sequence : ℕ
  message : Message M
  lane : InboundLane
  carrier : Option ChannelLane

namespace InboundEvent

variable {M : Type*}

/-- The category the event is ordered in. -/
def category (e : InboundEvent M) : InboundLane := e.lane.category e.carrier

end InboundEvent

/-! ### The reassembly barrier -/

/-- The reassembly events ticketed and not yet completed, with their category, by sequence and
by category. -/
structure UnfinishedReassembly where
  category : BTreeMap ℕ InboundLane
  byCategory : BTreeMap InboundLane (BTreeMap ℕ Unit)

namespace UnfinishedReassembly

def empty : UnfinishedReassembly := ⟨BTreeMap.empty, BTreeMap.empty⟩

def begin_ (u : UnfinishedReassembly) (sequence : ℕ) (category : InboundLane) :
    UnfinishedReassembly where
  category := u.category.insert sequence category
  byCategory := u.byCategory.insert category
    (((u.byCategory.get? category).getD BTreeMap.empty).insert sequence ())

def end_ (u : UnfinishedReassembly) (sequence : ℕ) : UnfinishedReassembly :=
  match u.category.get? sequence with
  | none => u
  | some category =>
    { category := u.category.remove sequence
      byCategory :=
        match u.byCategory.get? category with
        | none => u.byCategory
        | some sequences =>
          let sequences := sequences.remove sequence
          if sequences.size = 0 then u.byCategory.remove category
          else u.byCategory.insert category sequences }

/-- Whether `sequence` of `lane` waits for an earlier unfinished reassembly of its category, or
of no carrier. -/
def blocks (u : UnfinishedReassembly) (lane : InboundLane) (sequence : ℕ) : Bool :=
  [lane, .reassembly].any fun category =>
    ((u.byCategory.get? category).bind BTreeMap.first?).any fun earliest => earliest.1 < sequence

end UnfinishedReassembly

/-! ### The lane queues -/

structure InboundQueueEntry (M : Type*) where
  sequence : ℕ
  event : Option (InboundEvent M)

abbrev InboundQueue (M : Type*) := List (InboundQueueEntry M)

namespace InboundQueue

variable {M : Type*}

def pushPending (queue : InboundQueue M) (sequence : ℕ) : InboundQueue M :=
  queue ++ [⟨sequence, none⟩]

/-- Give the entry of the event's sequence its event. -/
def fill (event : InboundEvent M) : InboundQueue M → InboundQueue M
  | [] => []
  | entry :: queue =>
    if entry.sequence = event.sequence then { entry with event := some event } :: queue
    else entry :: fill event queue

/-- Fill the entry of the event's sequence, or insert one in the order of sequences. -/
def pushReady (queue : InboundQueue M) (event : InboundEvent M) : InboundQueue M :=
  if queue.any fun entry => entry.sequence = event.sequence then fill event queue
  else
    queue.takeWhile (fun queued => queued.sequence < event.sequence) ++
      ⟨event.sequence, some event⟩ ::
        queue.dropWhile fun queued => queued.sequence < event.sequence

def cancel (queue : InboundQueue M) (sequence : ℕ) : InboundQueue M :=
  queue.eraseP fun entry => entry.sequence = sequence

def pop (queue : InboundQueue M) : Option (InboundEvent M × InboundQueue M) :=
  match queue with
  | ⟨_, some event⟩ :: queue => some (event, queue)
  | _ => none

def frontSequence (queue : InboundQueue M) : Option ℕ :=
  queue.head?.map InboundQueueEntry.sequence

end InboundQueue

/-! ### The actor -/

inductive InboundCommand (M : Type*) where
  | pending (sequence : ℕ) (lane category : InboundLane)
  | ready (event : InboundEvent M)
  | cancel (sequence : ℕ) (lane : InboundLane)

structure InboundActor (M : Type*) where
  queues : InboundLane → InboundQueue M
  /-- The events being processed. -/
  active : List (InboundEvent M)
  activeLanes : InboundLane → Option ℕ
  unfinished : UnfinishedReassembly

structure InboundTaskCompletion (M : Type*) where
  lane : InboundLane
  sequence : ℕ
  next : Option (InboundEvent M)

namespace InboundActor

variable {M : Type*}

def new : InboundActor M := ⟨fun _ => [], [], fun _ => none, .empty⟩

variable (a : InboundActor M)

def setQueue (lane : InboundLane) (queue : InboundQueue M) : InboundActor M :=
  { a with queues := Function.update a.queues lane queue }

/-- Start the front event of `lane` if the lane is idle and the event may run. -/
def dispatchLane (lane : InboundLane) : InboundActor M :=
  if (a.activeLanes lane).isSome then a
  else
    match (a.queues lane).frontSequence with
    | none => a
    | some sequence =>
      if lane ≠ .reassembly ∧ a.unfinished.blocks lane sequence then a
      else
        match (a.queues lane).pop with
        | none => a
        | some (event, queue) =>
          { a.setQueue lane queue with
            active := a.active ++ [event]
            activeLanes := Function.update a.activeLanes lane (some sequence) }

/-- Start the front event of every idle lane that may run. -/
def dispatchRunnable : InboundActor M := InboundLane.all.foldl dispatchLane a

def handleCommand : InboundCommand M → InboundActor M
  | .pending sequence lane category =>
    let a := if lane = .reassembly then
        { a with unfinished := a.unfinished.begin_ sequence category }
      else a
    a.setQueue lane ((a.queues lane).pushPending sequence)
  | .ready event => a.setQueue event.lane ((a.queues event.lane).pushReady event)
  | .cancel sequence lane =>
    let a := if lane = .reassembly then { a with unfinished := a.unfinished.end_ sequence } else a
    a.setQueue lane ((a.queues lane).cancel sequence)

/-- Free the lane, leave the barrier, and hand the message a chunk completed to its lane. -/
def handleCompletion (completion : InboundTaskCompletion M) : InboundActor M :=
  let a := { a with activeLanes := Function.update a.activeLanes completion.lane none }
  let a := if completion.lane = .reassembly then
      { a with unfinished := a.unfinished.end_ completion.sequence }
    else a
  match completion.next with
  | some next => a.setQueue next.lane ((a.queues next.lane).pushReady next)
  | none => a

end InboundActor

/-! ### Tickets -/

/-- The next ticket of a connection; its sequences are `u64`. -/
structure InboundSender where
  nextSequence : ℕ

structure InboundTicket where
  sequence : ℕ
  lane : InboundLane

/-- Reserve the next sequence, publishing it before any event of it. -/
def InboundSender.reserve {M : Type*} (s : InboundSender) (lane category : InboundLane) :
    Option (InboundTicket × InboundCommand M × InboundSender) :=
  match checkedAdd u64Max s.nextSequence 1 with
  | none => none
  | some next =>
    some (⟨s.nextSequence, lane⟩, .pending s.nextSequence lane category, ⟨next⟩)

/-! ### Processing an event -/

/-- What processing an event finds outside the actor. -/
structure EventEnv (M : Type*) where
  /-- The transport is still there. -/
  upgraded : Bool
  /-- Whether the connection attempt admits the event's peer, or the error of asking. -/
  pendingConnectionAdmits : Option Bool
  now : ℕ
  credit : Option ChannelLane → ℕ
  authenticated : Bool
  /-- The message the bytes of a completed one carry, if they verify and decode. -/
  decode : Bytes → Option (Message M)
  /-- Whether the reassembled transaction passes admission and validation. -/
  accepted : Bool

section ProcessEvent

variable {M C : Type*}

/-- The message a chunk event completes, if it does and the message is accepted. -/
def processChunkEvent (r : MessageReassembler C) (charge : C) (event : InboundEvent M)
    (env : EventEnv M) : Option (InboundEvent M) × MessageReassembler C :=
  match event.message with
  | .logical _ _ => (none, r)
  | .chunk chunk =>
    let ((outcome, _), r) :=
      r.handleChargedAt chunk charge env.now env.credit env.authenticated event.carrier
    match outcome with
    | .incomplete | .rejected _ => (none, r)
    | .complete retained =>
      match env.decode retained.bytes with
      | none | some (.chunk _) => (none, r)
      | some message =>
        if !message.lane.admitsCarrier retained.carrier || !env.accepted then (none, r)
        else (some ⟨event.sequence, message, message.lane, event.carrier⟩, r)

def processEvent (r : MessageReassembler C) (charge : C) (event : InboundEvent M)
    (env : EventEnv M) : InboundTaskCompletion M × MessageReassembler C :=
  if env.upgraded && env.pendingConnectionAdmits = some true && event.lane = .reassembly then
    let (next, r) := processChunkEvent r charge event env
    (⟨event.lane, event.sequence, next⟩, r)
  else (⟨event.lane, event.sequence, none⟩, r)

end ProcessEvent

/-! ### The connection -/

/-- A frame between its ticket and its commit. -/
structure EnqueueTask (M : Type*) where
  ticket : InboundTicket
  message : Message M
  carrier : Option ChannelLane

/-- The event a task commits. -/
def EnqueueTask.event {M : Type*} (t : EnqueueTask M) : InboundEvent M :=
  ⟨t.ticket.sequence, t.message, t.ticket.lane, t.carrier⟩

/-- The history of a connection. -/
structure InboundLog (M : Type*) where
  /-- The lane and category of every sequence reserved, in order. -/
  reserved : List (InboundLane × InboundLane)
  /-- The events committed, and the messages their chunks completed. -/
  committed : List (InboundEvent M)
  reassembled : List (InboundEvent M)
  /-- The events the actor started, in order, and those that finished. -/
  started : List (InboundEvent M)
  finished : List (InboundEvent M)

structure Connection (M C : Type*) where
  sender : InboundSender
  tasks : List (EnqueueTask M)
  channel : List (InboundCommand M)
  actor : InboundActor M
  reassembler : MessageReassembler C
  log : InboundLog M

namespace Connection

variable {M C : Type*}

def new (limits : ReassemblyLimits) : Connection M C :=
  ⟨⟨0⟩, [], [], .new, .withLimits limits, ⟨[], [], [], [], []⟩⟩

variable (s : Connection M C)

/-- A decoded frame takes its ticket. -/
def reserveTicket (message : Message M) (carrier : Option ChannelLane) : Connection M C :=
  let lane := message.lane
  match s.sender.reserve lane (lane.category carrier) with
  | none => s
  | some (ticket, command, sender) =>
    { s with
      sender := sender
      tasks := s.tasks ++ [⟨ticket, message, carrier⟩]
      channel := s.channel ++ [command]
      log := { s.log with reserved := s.log.reserved ++ [(lane, lane.category carrier)] } }

/-- The task at `index` commits its ticket. -/
def commit (index : ℕ) : Connection M C :=
  match s.tasks[index]? with
  | none => s
  | some t =>
    { s with
      tasks := s.tasks.eraseIdx index
      channel := s.channel ++ [.ready t.event]
      log := { s.log with committed := s.log.committed ++ [t.event] } }

/-- The task at `index` drops its ticket. -/
def dropTicket (index : ℕ) : Connection M C :=
  match s.tasks[index]? with
  | none => s
  | some t =>
    { s with
      tasks := s.tasks.eraseIdx index
      channel := s.channel ++ [.cancel t.ticket.sequence t.ticket.lane] }

/-- The actor takes the next command. -/
def receive : Connection M C :=
  match s.channel with
  | [] => s
  | command :: channel => { s with channel := channel, actor := s.actor.handleCommand command }

def dispatchLane (lane : InboundLane) : Connection M C :=
  let actor := s.actor.dispatchLane lane
  { s with
    actor := actor
    log := { s.log with
      started := s.log.started ++ actor.active.drop s.actor.active.length } }

def dispatch : Connection M C := InboundLane.all.foldl dispatchLane s

/-- The event at `index` of those being processed is done. -/
def complete (index : ℕ) (charge : C) (env : EventEnv M) : Connection M C :=
  match s.actor.active[index]? with
  | none => s
  | some event =>
    let (completion, reassembler) := processEvent s.reassembler charge event env
    { s with
      actor := { s.actor with active := s.actor.active.eraseIdx index }.handleCompletion completion
      reassembler := reassembler
      log := { s.log with
        reassembled := s.log.reassembled ++ completion.next.toList
        finished := s.log.finished ++ [event] } }

/-- A cleanup pass drops the open messages that expired. -/
def cleanup (now : ℕ) (credit : Option ChannelLane → ℕ) : Connection M C :=
  { s with reassembler := (s.reassembler.sweepAt now credit).1 }

end Connection

/-- What may happen to a connection: its submitting tasks, its actor and its clock take turns in
any order. -/
inductive InboundStep (M C : Type*) where
  | reserve (message : Message M) (carrier : Option ChannelLane)
  | commit (index : ℕ)
  | drop (index : ℕ)
  | receive
  | dispatch
  | complete (index : ℕ) (charge : C) (env : EventEnv M)
  | cleanup (now : ℕ) (credit : Option ChannelLane → ℕ)

namespace Connection

variable {M C : Type*}

def step (s : Connection M C) : InboundStep M C → Connection M C
  | .reserve message carrier => s.reserveTicket message carrier
  | .commit index => s.commit index
  | .drop index => s.dropTicket index
  | .receive => s.receive
  | .dispatch => s.dispatch
  | .complete index charge env => s.complete index charge env
  | .cleanup now credit => s.cleanup now credit

/-- The connection after `steps`. -/
def run (limits : ReassemblyLimits) (steps : List (InboundStep M C)) : Connection M C :=
  steps.foldl step (new limits)

end Connection

end Rings.Inbound
