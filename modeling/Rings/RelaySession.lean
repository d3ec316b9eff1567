import Rings.Entry
import Rings.PeerQuota
import Rings.StreamReorder

/-!
One relayed TCP session between two nodes.

The pure relay of a node owns the set of live sessions; its interpreter keys a bounded queue and
a cancel token by session, and a task of its own moves bytes between the local socket and the
overlay. The overlay delivers a frame at most once, at any time, or never.
-/

namespace Rings.Transport

/-! ### The relay's vocabulary -/

inductive Initiator
  | local_ | remote
deriving DecidableEq

structure SessionKey where
  peer : Did
  namespace_ : String
  session : ℕ
  initiator : Initiator
deriving DecidableEq

inductive TransportKind
  | tcp | udp
deriving DecidableEq

/-- The relay's overlay message; `fromOpener` says whether its sender opened the session. -/
inductive Frame
  | open_ (session : ℕ) (service : String)
  | data (session : ℕ) (fromOpener : Bool) (seq : ℕ) (bytes : Bytes)
  | datagram (session : ℕ) (fromOpener : Bool) (bytes : Bytes)
  | shutdown (session : ℕ) (fromOpener : Bool) (sent : ℕ)
  | close (session : ℕ) (fromOpener : Bool)

inductive RelayCommand (T : Type*)
  | registerService (name : String) (target : T)
  | accepted (token : ℕ) (peer : Did) (service : String)
  | untrack (peer : Did) (session : ℕ) (initiator : Initiator)
  | abort (peer : Did) (session : ℕ) (initiator : Initiator)

inductive RelayEvent (T : Type*)
  | command (c : RelayCommand T)
  | frame (sender : Did) (frame : Frame)

inductive RelayEffect (T : Type*)
  | connect (key : SessionKey) (target : T) (kind : TransportKind)
  | write (key : SessionKey) (seq : ℕ) (bytes : Bytes)
  | sendDatagram (key : SessionKey) (bytes : Bytes)
  | shutdown (key : SessionKey) (sent : ℕ)
  | close (key : SessionKey)
  | sendClose (to_ : Did) (session : ℕ) (fromOpener : Bool)
  | openAccepted (token : ℕ) (key : SessionKey) (service : String)
  | rejectAccepted (token : ℕ)

def maxRelaySessions : ℕ := 1024
def maxRelaySessionsPerPeer : ℕ := 64

/-! ### The pure relay -/

variable {T : Type*}

structure RelayState (T : Type*) where
  services : String → Option T
  sessions : Finset SessionKey
  sessionQuota : PeerQuota
  nextSession : ℕ

namespace RelayState

def new : RelayState T :=
  ⟨fun _ => none, ∅, .new maxRelaySessions maxRelaySessionsPerPeer, 0⟩

def canAdmitSession (s : RelayState T) (key : SessionKey) : Bool :=
  (s.sessionQuota.canReserve key.peer).isOk

def insertSession (s : RelayState T) (key : SessionKey) : RelayState T × Bool :=
  if key ∈ s.sessions then (s, false)
  else
    match s.sessionQuota.reserve key.peer with
    | .error _ => (s, false)
    | .ok quota => ({ s with sessionQuota := quota, sessions := insert key s.sessions }, true)

def removeSession (s : RelayState T) (key : SessionKey) : RelayState T × Bool :=
  if key ∉ s.sessions then (s, false)
  else
    match s.sessionQuota.release key.peer with
    | (_, false) => (s, false)
    | (quota, true) => ({ s with sessionQuota := quota, sessions := s.sessions.erase key }, true)

end RelayState

def openerToInitiator (fromOpener : Bool) : Initiator :=
  if fromOpener then .remote else .local_

def rejectedOpen (s : RelayState T) (key : SessionKey) : RelayState T × List (RelayEffect T) :=
  (s, [.sendClose key.peer key.session false])

/-- Hand the session its effect when the relay is the frame's carrier and the session is live. -/
def toLiveSession (s : RelayState T) (kind carrier : TransportKind) (key : SessionKey)
    (effect : SessionKey → RelayEffect T) : RelayState T × List (RelayEffect T) :=
  if kind = carrier ∧ key ∈ s.sessions then (s, [effect key]) else (s, [])

def stepCommand (ns : String) (s : RelayState T) :
    RelayCommand T → RelayState T × List (RelayEffect T)
  | .registerService name target =>
    ({ s with services := Function.update s.services name (some target) }, [])
  | .accepted token peer service =>
    let key : SessionKey := ⟨peer, ns, s.nextSession, .local_⟩
    if !s.canAdmitSession key then (s, [.rejectAccepted token])
    else
      match checkedAdd u64Max s.nextSession 1 with
      | none => (s, [.rejectAccepted token])
      | some nextSession =>
        match RelayState.insertSession { s with nextSession := nextSession } key with
        | (s', false) => (s', [.rejectAccepted token])
        | (s', true) => (s', [.openAccepted token key service])
  | .untrack peer session initiator => ((s.removeSession ⟨peer, ns, session, initiator⟩).1, [])
  | .abort peer session initiator =>
    match s.removeSession ⟨peer, ns, session, initiator⟩ with
    | (s', true) => (s', [.sendClose peer session (initiator = .local_)])
    | (s', false) => (s', [])

def stepFrame (kind : TransportKind) (ns : String) (s : RelayState T) (sender : Did) :
    Frame → RelayState T × List (RelayEffect T)
  | .open_ session service =>
    let key : SessionKey := ⟨sender, ns, session, .remote⟩
    if key ∈ s.sessions then (s, [])
    else
      match s.services service with
      | none => rejectedOpen s key
      | some target =>
        if !s.canAdmitSession key then rejectedOpen s key
        else
          match s.insertSession key with
          | (s', false) => rejectedOpen s' key
          | (s', true) => (s', [.connect key target kind])
  | .data session fromOpener seq bytes =>
    toLiveSession s kind .tcp ⟨sender, ns, session, openerToInitiator fromOpener⟩
      fun key => .write key seq bytes
  | .shutdown session fromOpener sent =>
    toLiveSession s kind .tcp ⟨sender, ns, session, openerToInitiator fromOpener⟩
      fun key => .shutdown key sent
  | .datagram session fromOpener bytes =>
    toLiveSession s kind .udp ⟨sender, ns, session, openerToInitiator fromOpener⟩
      fun key => .sendDatagram key bytes
  | .close session fromOpener =>
    let key : SessionKey := ⟨sender, ns, session, openerToInitiator fromOpener⟩
    if key ∈ s.sessions then ((s.removeSession key).1, [.close key]) else (s, [])

def step (ns : String) (s : RelayState T) : RelayEvent T → RelayState T × List (RelayEffect T)
  | .command c => stepCommand ns s c
  | .frame sender frame => stepFrame .tcp ns s sender frame

/-- The session an event names, if it names one. -/
def RelayEvent.key? (ns : String) (s : RelayState T) : RelayEvent T → Option SessionKey
  | .command (.registerService _ _) => none
  | .command (.accepted _ peer _) => some ⟨peer, ns, s.nextSession, .local_⟩
  | .command (.untrack peer session initiator) => some ⟨peer, ns, session, initiator⟩
  | .command (.abort peer session initiator) => some ⟨peer, ns, session, initiator⟩
  | .frame sender (.open_ session _) => some ⟨sender, ns, session, .remote⟩
  | .frame sender (.data session fromOpener _ _) =>
    some ⟨sender, ns, session, openerToInitiator fromOpener⟩
  | .frame sender (.datagram session fromOpener _) =>
    some ⟨sender, ns, session, openerToInitiator fromOpener⟩
  | .frame sender (.shutdown session fromOpener _) =>
    some ⟨sender, ns, session, openerToInitiator fromOpener⟩
  | .frame sender (.close session fromOpener) =>
    some ⟨sender, ns, session, openerToInitiator fromOpener⟩

/-! ### The session's task -/

def tcpBuf : ℕ := 30000
/-- Items the queue to a session's local socket holds. -/
def outboundCapacity : ℕ := 1024
/-- Feedback iterations within one turn. -/
def maxFixpointSteps : ℕ := 1024

def chunksLoop (size : ℕ) : ℕ → Bytes → List Bytes
  | 0, _ => []
  | _ + 1, [] => []
  | turns + 1, bytes => bytes.take size :: chunksLoop size turns (bytes.drop size)

/-- `chunks`: consecutive pieces of `size` bytes, the last one possibly shorter. -/
def chunks (size : ℕ) (bytes : Bytes) : List Bytes := chunksLoop size bytes.length bytes

inductive Outbound
  | segment (seq : ℕ) (bytes : Bytes)
  | datagram (bytes : Bytes)
  | shutdown (sent : ℕ)

inductive Release
  | close | reset
deriving DecidableEq

/-- The local socket: what was read from it and written to it, whether its write half was shut
down, and its release. It is `held` while the task owns a stream. -/
structure LocalSocket where
  held : Bool
  reads : List Bytes
  eof : Bool
  written : Bytes
  shutdown : Bool
  released : Option Release

/-- The locals of `relay_tcp_with_timeouts`. -/
structure RelayLoop where
  localReadOpen : Bool
  localWriteOpen : Bool
  sent : ℕ
  inbound : StreamReorder Bytes
  gap : Option ℕ

/-- Where a session's task stands. `relaying` is at the loop's condition, or waiting for one of
the loop's events when `selecting`. -/
inductive Stage
  | idle
  | opening (admitted : Bool)
  | dialing
  | preamble (sent : ℕ) (rest : List Bytes)
  | relaying (selecting : Bool) (loop : RelayLoop)
  | closing
  | untracking
  | sendingClose
  | cancellingOpen
  | done

/-- One node's part of the session: its relay, the engine's entry at the session's key, and the
session's task. `handle` is the entry's generation, `generation` the task's own; `taken` lists
what the task took off its queue, and `fault` is the fault it was reset for. -/
structure Endpoint (T : Type*) where
  key : SessionKey
  service : String
  preamble : Bytes
  state : RelayState T
  handle : Option ℕ
  generations : ℕ
  generation : ℕ
  queue : List Outbound
  cancelled : Bool
  stage : Stage
  socket : LocalSocket
  taken : List Outbound
  fault : Option StreamFault

/-- What a task does next, with what its surroundings answer: whether a send was admitted, what
a read returned, how many bytes a failing write wrote. -/
inductive Action (T : Type*)
  | sendOpen
  | opened (ok : Bool)
  | dialed (ok : Bool)
  | sendPreamble (ok : Bool)
  | loopHead
  | cancelledBranch
  | localRead (read : Option Bytes) (ok : Bool)
  | recv (failsAfter : Option ℕ)
  | gapDeadline
  | idle
  | closeIfCurrent
  | untracked (ok : Bool)
  | sendClose
  | cancel
  | otherTurn (event : RelayEvent T)

namespace Endpoint

variable (e : Endpoint T)

def openedByUs : Bool := e.key.initiator = .local_

/-! ### The engine at the session's key -/

/-- `register`: claim the vacant entry for a fresh generation. -/
def register : Option (Endpoint T) :=
  match e.handle, checkedAdd u64Max e.generations 1 with
  | none, some generations =>
    some { e with
      handle := some e.generations
      generation := e.generations
      generations := generations
      queue := []
      cancelled := false }
  | _, _ => none

/-- `close_for_effect`: release the entry, and cancel its task. -/
def closeForEffect : Endpoint T :=
  match e.handle with
  | none => e
  | some _ => { e with handle := none, cancelled := true }

/-- `untrack_feedback` and `abort_feedback` name the session. -/
def untrackFeedback : RelayCommand T := .untrack e.key.peer e.key.session e.key.initiator

def abortFeedback : RelayCommand T := .abort e.key.peer e.key.session e.key.initiator

/-- `connect`: register the session before the dial. -/
def connect : Endpoint T × List (RelayCommand T) :=
  match e.handle with
  | some _ => (e, [])
  | none =>
    match e.register with
    | none => (e, [e.abortFeedback])
    | some e' => ({ e' with stage := .dialing }, [])

/-- `deliver`: hand the task an item, or end a session whose queue is full. -/
def deliver (item : Outbound) : Endpoint T × List (RelayCommand T) :=
  match e.handle with
  | none => (e, [e.untrackFeedback])
  | some _ =>
    if e.queue.length < outboundCapacity then ({ e with queue := e.queue ++ [item] }, [])
    else (e.closeForEffect, [e.abortFeedback])

/-- Run one effect: the commands it feeds back, and the frames it sends. The effects of other
sessions reach other entries. -/
def runEffect (effect : RelayEffect T) : (Endpoint T × List (RelayCommand T)) × List Frame :=
  match effect with
  | .connect key _ _ => (if key = e.key then e.connect else (e, []), [])
  | .write key seq bytes => (if key = e.key then e.deliver (.segment seq bytes) else (e, []), [])
  | .sendDatagram key bytes => (if key = e.key then e.deliver (.datagram bytes) else (e, []), [])
  | .shutdown key sent => (if key = e.key then e.deliver (.shutdown sent) else (e, []), [])
  | .close key => ((if key = e.key then e.closeForEffect else e, []), [])
  | .sendClose _ session fromOpener => ((e, []), [.close session fromOpener])
  | .openAccepted _ _ _ => ((e, []), [])
  | .rejectAccepted _ => ((e, []), [])

def runEffects (e : Endpoint T) :
    List (RelayEffect T) → (Endpoint T × List (RelayCommand T)) × List Frame
  | [] => ((e, []), [])
  | effect :: effects =>
    let first := e.runEffect effect
    let rest := runEffects first.1.1 effects
    ((rest.1.1, first.1.2 ++ rest.1.2), first.2 ++ rest.2)

/-- `run_turn`: reduce the events in order, each one's effects before the next, and the feedback
of the effects behind the events that wait. -/
def turn : ℕ → List (RelayEvent T) → Endpoint T → Endpoint T × List Frame
  | 0, _, e => (e, [])
  | _ + 1, [], e => (e, [])
  | budget + 1, event :: events, e =>
    let next := step e.key.namespace_ e.state event
    let ran := runEffects { e with state := next.1 } next.2
    let rest := turn budget (events ++ ran.1.2.map .command) ran.1.1
    (rest.1, ran.2 ++ rest.2)

/-- A frame of the session's peer arrives. -/
def receive (frame : Frame) : Endpoint T × List Frame :=
  turn maxFixpointSteps [.frame e.key.peer frame] e

/-! ### The steps of the task -/

/-- The task ends, and drops the stream it still holds. -/
def endTask : Endpoint T :=
  { e with
    stage := .done
    socket :=
      if e.socket.held then { e.socket with held := false, released := some .close }
      else e.socket }

/-- `relay_tcp` begins with the preamble. -/
def relayTcp : Endpoint T :=
  { e with stage := .preamble 0 (chunks tcpBuf e.preamble) }

def leave (l : RelayLoop) : Endpoint T :=
  { e with
    stage := .closing
    socket :=
      if l.localReadOpen || l.localWriteOpen then
        { e.socket with held := false, released := some .reset }
      else e.socket }

def abandon (l : RelayLoop) : Endpoint T := Endpoint.leave { e with cancelled := true } l

/-- `reset`: the session is cancelled for a fault, and the loop left. -/
def reset (fault : StreamFault) (l : RelayLoop) : Endpoint T :=
  Endpoint.abandon { e with fault := some fault } l

/-- The loop as it starts, after `sent` segments of preamble. -/
def startLoop (sent : ℕ) : RelayLoop := ⟨true, true, sent, .new, none⟩

def sendPreamble (ok : Bool) : Endpoint T × List Frame :=
  match e.stage with
  | .preamble sent [] => ({ e with stage := .relaying false (startLoop sent) }, [])
  | .preamble sent (chunk :: rest) =>
    (if ok then { e with stage := .preamble (sent + 1) rest }
      else { e with cancelled := true, stage := .relaying false (startLoop 0) },
      [.data e.key.session e.openedByUs sent chunk])
  | _ => (e, [])

/-- The branch of a local read. -/
def localRead (l : RelayLoop) (ok : Bool) : Option Bytes → Endpoint T × List Frame
  | none => (e.abandon l, [])
  | some [] =>
    ({ e with
        socket := { e.socket with eof := true }
        stage := .relaying false { l with localReadOpen := false } },
      [.shutdown e.key.session e.openedByUs l.sent])
  | some bytes =>
    let read := { e with socket := { e.socket with reads := e.socket.reads ++ [bytes] } }
    (if ok then { read with stage := .relaying false { l with sent := l.sent + 1 } }
      else Endpoint.abandon read l,
      [.data e.key.session e.openedByUs l.sent bytes])

/-- Write what became writable; a failing write wrote the first `failsAfter` bytes of it. -/
def writeReady (l : RelayLoop) (inbound : StreamReorder Bytes) (ready : Ready Bytes) :
    Option ℕ → Endpoint T
  | some failsAfter =>
    Endpoint.abandon { e with
      socket := { e.socket with
        written := e.socket.written ++ ready.segments.flatten.take failsAfter } } l
  | none =>
    { e with
      socket := { e.socket with
        written := e.socket.written ++ ready.segments.flatten
        shutdown := e.socket.shutdown || ready.finished }
      stage := .relaying false { l with
        inbound := inbound
        gap := inbound.gap
        localWriteOpen := l.localWriteOpen && !ready.finished } }

/-- An arrival from the peer, as the reorder state takes it. -/
def arrival (e : Endpoint T) (l : RelayLoop) (failsAfter : Option ℕ) :
    Except StreamFault (StreamReorder Bytes × Ready Bytes) → Endpoint T
  | .error fault => e.reset fault l
  | .ok (inbound, ready) => e.writeReady l inbound ready failsAfter

/-- The branch of the queue from the peer, which ends with its last sender. -/
def recv (l : RelayLoop) (failsAfter : Option ℕ) : Endpoint T :=
  match e.queue with
  | [] => if e.handle.isNone then e.leave l else e
  | item :: queue =>
    let e := { e with queue := queue, taken := e.taken ++ [item] }
    match item with
    | .segment seq bytes => e.arrival l failsAfter (l.inbound.data seq bytes)
    | .shutdown sent => e.arrival l failsAfter (l.inbound.acceptFin sent)
    | .datagram _ => e.leave l

/-- `Open` was admitted, or its send failed. A session removed meanwhile is not relayed. -/
def opened (ok : Bool) : Endpoint T :=
  if !ok then { e with stage := .closing }
  else
    match e.handle with
    | none => { e with stage := .cancellingOpen }
    | some generation => if generation = e.generation then e.relayTcp else e.endTask

/-- `close_if_current`: only the owner of the entry releases it. -/
def closeIfCurrent : Endpoint T :=
  if e.handle = some e.generation then
    { e with handle := none, cancelled := true, stage := .untracking }
  else e.endTask

/-- One step of the node; a step that is not due changes nothing. -/
def act (a : Action T) : Endpoint T × List Frame :=
  match a, e.stage with
  | .sendOpen, .opening false =>
    ({ e with stage := .opening true }, [.open_ e.key.session e.service])
  | .opened ok, .opening admitted => (if ok && !admitted then e else e.opened ok, [])
  | .dialed ok, .dialing =>
    (if ok then Endpoint.relayTcp { e with socket := { e.socket with held := true } }
      else { e with stage := .closing }, [])
  | .sendPreamble ok, _ => e.sendPreamble ok
  | .loopHead, .relaying false l =>
    (if !e.cancelled && (l.localReadOpen || l.localWriteOpen) then
        { e with stage := .relaying true l }
      else e.leave l, [])
  | .cancelledBranch, .relaying true l => (if e.cancelled then e.leave l else e, [])
  | .localRead read ok, .relaying true l =>
    if l.localReadOpen ∧ ∀ bytes ∈ read, bytes.length ≤ tcpBuf then e.localRead l ok read
    else (e, [])
  | .recv failsAfter, .relaying true l => (if l.localWriteOpen then e.recv l failsAfter else e, [])
  | .gapDeadline, .relaying true l =>
    (match l.gap with
      | some next => e.reset (.unfilled next) l
      | none => e, [])
  | .idle, .relaying true l => (e.leave l, [])
  | .closeIfCurrent, .closing => (e.closeIfCurrent, [])
  | .untracked ok, .untracking =>
    let tracked : Endpoint T × List Frame :=
      if ok then turn maxFixpointSteps [.command e.untrackFeedback] e else (e, [])
    ({ tracked.1 with stage := .sendingClose }, tracked.2)
  | .sendClose, .sendingClose => (e.endTask, [.close e.key.session e.openedByUs])
  | .sendClose, .cancellingOpen => (e.endTask, [.close e.key.session e.openedByUs])
  | .cancel, _ => ({ e with cancelled := true }, [])
  | .otherTurn event, _ =>
    (if event.key? e.key.namespace_ e.state = some e.key then e
      else { e with state := (step e.key.namespace_ e.state event).1 }, [])
  | _, _ => (e, [])

end Endpoint

/-! ### The two nodes -/

inductive Side
  | opener | acceptor
deriving DecidableEq

def Side.other : Side → Side
  | .opener => .acceptor
  | .acceptor => .opener

/-- The two ends, and the frames on their way with the end each is sent to. -/
structure World (T : Type*) where
  ends : Side → Endpoint T
  network : List (Side × Frame)

/-- A step of one node, or the arrival of the frame at a position of the network. -/
inductive WorldStep (T : Type*)
  | act (side : Side) (a : Action T)
  | deliver (index : ℕ)

namespace World

/-- The end `side` after a step, and the frames it sent to the other end. -/
def update (w : World T) (side : Side) (next : Endpoint T × List Frame) : World T where
  ends := Function.update w.ends side next.1
  network := w.network ++ next.2.map fun f => (side.other, f)

def step (w : World T) : WorldStep T → World T
  | .act side a => w.update side ((w.ends side).act a)
  | .deliver index =>
    match w.network[index]? with
    | none => w
    | some (side, frame) =>
      update { w with network := w.network.eraseIdx index } side ((w.ends side).receive frame)

def run (w : World T) (steps : List (WorldStep T)) : World T := steps.foldl step w

end World

end Rings.Transport
