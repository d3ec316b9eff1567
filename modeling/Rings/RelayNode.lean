import Rings.RelaySession

/-!
The engine of a node's relay: the sessions of one namespace it runs, and their tasks.

The reducer decides which sessions live. The engine registers each under a fresh generation
before its task starts, and a task that ends removes the entry only while it still carries the
task's own generation; the reducer learns of that removal in a later turn, by the session's key.
-/

namespace Rings.Transport

variable {T : Type*}

/-! ### The engine's table -/

/-- The bounded queue to a session's local socket; `closed` once its receiver is gone. -/
structure Channel where
  queue : List Outbound
  closed : Bool

/-- `try_send` has room. -/
def Channel.admits (c : Channel) : Bool := !c.closed && c.queue.length < outboundCapacity

/-- The task of a generation that owns the local socket, and the one that opens a UDP flow. -/
inductive TaskRole
  | socket | opener
deriving DecidableEq

/-- Where a task stands. It is `untracking` between the removal of its entry and the `Untrack`
that reports it; a `notifying` task owes its peer a `Close`. -/
inductive TaskStage
  | idle
  | opening (service : String) (sent : Bool)
  | first (sent : Bool)
  | active
  | dialing
  | relaying
  | untracking (notify : Bool)
  | notifying
  | done
deriving DecidableEq

/-- What a node sends, and what reaches the local socket of a generation: an item its queue took,
or the cancel of a peer's `Close`. A frame carries the generation whose session it is about. -/
inductive Output
  | frame (generation : Option ℕ) (to_ : Did) (frame : Frame)
  | connected (generation : ℕ)
  | queued (generation : ℕ) (item : Outbound)
  | cancelled (generation : ℕ)

/-- The relay of one namespace. `map` holds the generation of the live handle of each key,
`registered` the key each generation was registered for. -/
structure RelayNode (T : Type*) where
  kind : TransportKind
  namespace_ : String
  state : RelayState T
  map : SessionKey → Option ℕ
  generations : ℕ
  registered : ℕ → SessionKey
  channels : ℕ → Channel
  tasks : ℕ → TaskRole → TaskStage

/-- What an effect finds: a runtime for its task, the accepted resource under its token, with its
UDP flow still pending, and room in the control outbox. -/
structure Answers where
  runtime : Bool
  held : Bool
  outbox : Bool

/-- An effect's outcome: its feedback, each command with the generation it ends, what it put out,
and whether it failed the turn. -/
structure Ran (T : Type*) where
  node : RelayNode T
  feedback : List (RelayCommand T × Option ℕ)
  outputs : List Output
  failed : Bool

def openedByUs (key : SessionKey) : Bool := key.initiator = .local_

def untrackFeedback (key : SessionKey) : RelayCommand T :=
  .untrack key.peer key.session key.initiator

def abortFeedback (key : SessionKey) : RelayCommand T :=
  .abort key.peer key.session key.initiator

/-- `Relay::step`. -/
def relayStep (kind : TransportKind) (ns : String) (s : RelayState T) :
    RelayEvent T → RelayState T × List (RelayEffect T)
  | .command c => stepCommand ns s c
  | .frame sender frame => stepFrame kind ns s sender frame

inductive SlotRegistration (T : Type*)
  | registered (node : RelayNode T) (generation : ℕ)
  | alreadyPresent (node : RelayNode T)
  | failed

inductive Read
  | segment (seq : ℕ) (bytes : Bytes)
  | shutdown (sent : ℕ)
  | datagram (bytes : Bytes)

def Read.frame (key : SessionKey) : Read → Frame
  | .segment seq bytes => .data key.session (openedByUs key) seq bytes
  | .shutdown sent => .shutdown key.session (openedByUs key) sent
  | .datagram bytes => .datagram key.session (openedByUs key) bytes

/-- What the task of `key` reads: a TCP task segments and its end, a UDP task of a flow the peer
opened datagrams. -/
def Read.isFor (kind : TransportKind) (key : SessionKey) : Read → Bool
  | .segment _ _ | .shutdown _ => kind = .tcp
  | .datagram _ => kind = .udp && !openedByUs key

inductive TaskAct
  | sendOpen
  | opened (ok : Bool)
  | sendFirst (bytes : Bytes)
  | firstSent (ok active : Bool)
  | forward (bytes : Bytes)
  | dialed (ok : Bool)
  | read (r : Read)
  | recv
  | relayEnds
  | untracked
  | notified
  | dies

/-- A turn of the reducer, a step of a task, or a registration of the other namespace, which
shares the engine's generations. -/
inductive NodeOp (T : Type*)
  | registerService (name : String) (target : T)
  | accepted (token : ℕ) (peer : Did) (service : String) (a : Answers)
  | frame (sender : Did) (frame : Frame) (a : Answers)
  | work (g : ℕ) (role : TaskRole) (act : TaskAct)
  | otherNamespace

namespace RelayNode

def new (kind : TransportKind) (ns : String) : RelayNode T where
  kind := kind
  namespace_ := ns
  state := .new
  map := fun _ => none
  generations := 0
  registered := fun _ => ⟨0, ns, 0, .local_⟩
  channels := fun _ => ⟨[], true⟩
  tasks := fun _ _ => .idle

variable (n : RelayNode T)

def setStage (g : ℕ) (role : TaskRole) (stage : TaskStage) : RelayNode T :=
  { n with tasks := Function.update n.tasks g (Function.update (n.tasks g) role stage) }

def register (key : SessionKey) : SlotRegistration T :=
  match checkedAdd u64Max n.generations 1 with
  | none => .failed
  | some generations =>
    match n.map key with
    | some _ => .alreadyPresent { n with generations := generations }
    | none =>
      .registered { n with
        map := Function.update n.map key (some n.generations)
        generations := generations
        registered := Function.update n.registered n.generations key
        channels := Function.update n.channels n.generations ⟨[], false⟩ } n.generations

def remove (key : SessionKey) : RelayNode T := { n with map := Function.update n.map key none }

/-! ### The effects -/

def connect (a : Answers) (key : SessionKey) : Ran T :=
  if !a.runtime then ⟨n, [(abortFeedback key, none)], [], false⟩
  else
    match n.register key with
    | .failed => ⟨n, [(abortFeedback key, none)], [], false⟩
    | .alreadyPresent n' => ⟨n', [], [], false⟩
    | .registered n' g => ⟨n'.setStage g .socket .dialing, [], [.connected g], false⟩

/-- The tasks of an accepted resource: a TCP stream has one, which opens the session and then
relays it; a UDP flow relays from the start, and a second task opens it. -/
def spawnAccepted (g : ℕ) (service : String) : RelayNode T :=
  match n.kind with
  | .tcp => n.setStage g .socket (.opening service false)
  | .udp => (n.setStage g .socket .relaying).setStage g .opener (.opening service false)

def bindAccepted (a : Answers) (key : SessionKey) (service : String) : Ran T :=
  if !a.held || !a.runtime then ⟨n, [(untrackFeedback key, none)], [], false⟩
  else
    match n.register key with
    | .failed => ⟨n, [(untrackFeedback key, none)], [], false⟩
    | .alreadyPresent n' => ⟨n', [], [], false⟩
    | .registered n' g => ⟨n'.spawnAccepted g service, [], [], false⟩

/-- `deliver`: a queue that admits nothing ends the session of the generation that holds it. -/
def deliver (key : SessionKey) (item : Outbound) : Ran T :=
  match n.map key with
  | none => ⟨n, [(untrackFeedback key, none)], [], false⟩
  | some g =>
    if (n.channels g).admits then
      ⟨{ n with
          channels := Function.update n.channels g
            { n.channels g with queue := (n.channels g).queue ++ [item] } },
        [], [.queued g item], false⟩
    else ⟨n.remove key, [(abortFeedback key, some g)], [], false⟩

def closeForEffect (key : SessionKey) : Ran T :=
  match n.map key with
  | none => ⟨n, [], [], false⟩
  | some g => ⟨n.remove key, [], [.cancelled g], false⟩

/-- Run one effect of an event; `source` is the generation the event ends. -/
def runEffect (a : Answers) (source : Option ℕ) : RelayEffect T → Ran T
  | .connect key _ _ => n.connect a key
  | .write key seq bytes => n.deliver key (.segment seq bytes)
  | .sendDatagram key bytes => n.deliver key (.datagram bytes)
  | .shutdown key sent => n.deliver key (.shutdown sent)
  | .close key => n.closeForEffect key
  | .sendClose to_ session fromOpener =>
    if a.outbox then ⟨n, [], [.frame source to_ (.close session fromOpener)], false⟩
    else ⟨n, [], [], true⟩
  | .openAccepted _ key service => n.bindAccepted a key service
  | .rejectAccepted _ => ⟨n, [], [], false⟩

def runEffects (a : Answers) (source : Option ℕ) : List (RelayEffect T) → RelayNode T → Ran T
  | [], n => ⟨n, [], [], false⟩
  | effect :: effects, n =>
    let ran := n.runEffect a source effect
    if ran.failed then ran
    else
      let rest := runEffects a source effects ran.node
      ⟨rest.node, ran.feedback ++ rest.feedback, ran.outputs ++ rest.outputs, rest.failed⟩

/-- `run_turn`: each event is reduced and its effects run before the next; feedback is reduced
behind the events that wait, within the turn's budget. -/
def turn (a : Answers) :
    ℕ → List (RelayEvent T × Option ℕ) → RelayNode T → RelayNode T × List Output
  | 0, _, n => (n, [])
  | _ + 1, [], n => (n, [])
  | budget + 1, (event, source) :: events, n =>
    let next := relayStep n.kind n.namespace_ n.state event
    let ran := runEffects a source next.2 { n with state := next.1 }
    if ran.failed then (ran.node, ran.outputs)
    else
      let feedback := ran.feedback.map fun c => (RelayEvent.command c.1, c.2)
      let rest := turn a budget (events ++ feedback) ran.node
      (rest.1, ran.outputs ++ rest.2)

def runTurn (a : Answers) (event : RelayEvent T) : RelayNode T × List Output :=
  turn a maxFixpointSteps [(event, none)] n

/-! ### The tasks -/

/-- `close_if_current`: only the owner of the entry releases it, and then reports the release. -/
def closeIfCurrent (g : ℕ) (role : TaskRole) (notify : Bool) : RelayNode T :=
  if n.map (n.registered g) = some g then
    (n.remove (n.registered g)).setStage g role (.untracking notify)
  else n.setStage g role .done

/-- `Open` reached the transport: a session that is gone is closed again. -/
def opened (g : ℕ) (role : TaskRole) : RelayNode T :=
  match n.map (n.registered g) with
  | none => n.setStage g role .notifying
  | some current =>
    if current = g then
      n.setStage g role (match role with | .socket => .relaying | .opener => .first false)
    else n.setStage g role .done

def sendFrame (g : ℕ) (frame : Frame) : Output := .frame (some g) (n.registered g).peer frame

/-- One step of a task; a step that is not due changes nothing. -/
def work (g : ℕ) (role : TaskRole) (act : TaskAct) : RelayNode T × List Output :=
  let key := n.registered g
  match act, n.tasks g role with
  | .sendOpen, .opening service false =>
    (n.setStage g role (.opening service true), [n.sendFrame g (.open_ key.session service)])
  | .opened false, .opening _ _ => (n.closeIfCurrent g role true, [])
  | .opened true, .opening _ true => (n.opened g role, [])
  | .sendFirst bytes, .first false =>
    (n.setStage g role (.first true),
      [n.sendFrame g (.datagram key.session (openedByUs key) bytes)])
  | .firstSent false _, .first _ => (n.closeIfCurrent g role false, [])
  | .firstSent true active, .first true =>
    (if active then n.setStage g role .active else n.closeIfCurrent g role true, [])
  | .forward bytes, .active =>
    (n, [n.sendFrame g (.datagram key.session (openedByUs key) bytes)])
  | .dialed ok, .dialing =>
    (if ok then n.setStage g role .relaying else n.closeIfCurrent g role true, [])
  | .read r, .relaying =>
    if r.isFor n.kind key then (n, [n.sendFrame g (r.frame key)]) else (n, [])
  | .recv, .relaying =>
    ({ n with
        channels := Function.update n.channels g
          { n.channels g with queue := (n.channels g).queue.tail } }, [])
  | .relayEnds, .relaying => (n.closeIfCurrent g role true, [])
  | .untracked, .untracking notify =>
    let tracked := n.runTurn ⟨true, true, true⟩ (.command (untrackFeedback key))
    (tracked.1.setStage g role (if notify then .notifying else .done), tracked.2)
  | .notified, .notifying =>
    (n.setStage g role .done,
      [n.sendFrame g (.close key.session (openedByUs key))])
  -- a task abandoned before its teardown leaves its entry behind, and its queue closed
  | .dies, .opening _ _ | .dies, .first _ | .dies, .dialing | .dies, .relaying =>
    ({ n.setStage g role .done with
        channels :=
          if role = .socket then
            Function.update n.channels g { n.channels g with closed := true }
          else n.channels }, [])
  | _, _ => (n, [])

/-! ### The node -/

def step : NodeOp T → RelayNode T × List Output
  | .registerService name target =>
    n.runTurn ⟨true, true, true⟩ (.command (.registerService name target))
  | .accepted token peer service a => n.runTurn a (.command (.accepted token peer service))
  | .frame sender frame a => n.runTurn a (.frame sender frame)
  | .work g role act => n.work g role act
  | .otherNamespace =>
    ({ n with generations := (checkedAdd u64Max n.generations 1).getD n.generations }, [])

end RelayNode

end Rings.Transport
