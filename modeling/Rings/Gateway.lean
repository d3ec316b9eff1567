import Rings.Effect
import Rings.PeerQuota

/-!
The packet gateway: captured TCP flows, each bridged to one Onion stream.

Three tables hold a captured flow: the flow table with its lifecycle state, the TCP stack with
its endpoint, and the runtime with the byte bridge. The userspace TCP engine is a parameter, for
it is not part of the gateway; a bridge runs beside the runtime, and shares with it a command
queue of one slot and the channel of events.
-/

namespace Rings.Gateway

/-- Bytes of a packet or of a stream. -/
abbrev Bytes := List (BitVec 8)

/-! ### Flows -/

/-- A socket address. -/
inductive SocketAddr
  | v4 (ip : BitVec 32) (port : BitVec 16)
  | v6 (ip : BitVec 128) (port : BitVec 16)
  deriving DecidableEq

namespace SocketAddr

/-- The address as one number, by which addresses are told apart. -/
def key : SocketAddr → ℕ
  | v4 ip port => 2 * (ip.toNat * 2 ^ 16 + port.toNat)
  | v6 ip port => 2 * (ip.toNat * 2 ^ 16 + port.toNat) + 1

lemma key_injective : Function.Injective key := by
  have hpair : ∀ {w : ℕ} (a b : BitVec w) (p q : BitVec 16),
      a.toNat * 2 ^ 16 + p.toNat = b.toNat * 2 ^ 16 + q.toNat → a = b ∧ p = q := by
    intro w a b p q h
    have hp := p.isLt
    have hq := q.isLt
    exact ⟨BitVec.eq_of_toNat_eq (by omega), BitVec.eq_of_toNat_eq (by omega)⟩
  intro a b h
  cases a with
  | v4 ip port =>
    cases b with
    | v4 ip' port' =>
      obtain ⟨rfl, rfl⟩ := hpair ip ip' port port' (by simp only [key] at h; omega)
      rfl
    | v6 ip' port' =>
      simp only [key] at h
      omega
  | v6 ip port =>
    cases b with
    | v4 ip' port' =>
      simp only [key] at h
      omega
    | v6 ip' port' =>
      obtain ⟨rfl, rfl⟩ := hpair ip ip' port port' (by simp only [key] at h; omega)
      rfl

end SocketAddr

/-- The identity of one captured flow: its four-tuple. -/
structure FlowId where
  source : SocketAddr
  target : SocketAddr
  deriving DecidableEq

instance : LinearOrder FlowId :=
  LinearOrder.lift' (fun f => toLex (f.source.key, f.target.key)) fun a b h => by
    have h' : (a.source.key, a.target.key) = (b.source.key, b.target.key) := h
    rw [Prod.mk.injEq] at h'
    cases a
    cases b
    simp only [FlowId.mk.injEq]
    exact ⟨SocketAddr.key_injective h'.1, SocketAddr.key_injective h'.2⟩

inductive FlowEvent
  | «open» | establish | halfClose | close | fail
  deriving DecidableEq

/-- The lifecycle of one captured flow. -/
inductive FlowState
  | targetBound (id : FlowId)
  | opening (id : FlowId)
  | established (id : FlowId)
  | halfClosed (id : FlowId)
  | closed (id : FlowId)
  | failed (id : FlowId)
  deriving DecidableEq

/-! ### Errors -/

inductive FlowTableError
  | duplicate (id : FlowId)
  | capacityExhausted (limit : ℕ)
  | notFound (id : FlowId)
  | transition (state : FlowState) (event : FlowEvent)
  deriving DecidableEq

inductive TcpStackError
  | unknownFlow (id : FlowId)
  | sendUnavailable (id : FlowId)
  | receiveUnavailable (id : FlowId)
  | receiveCommitMismatch (flow : FlowId) (expected actual : ℕ)
  deriving DecidableEq

/-- The errors of the packet device. -/
inductive PacketIoError
  | device (message : String)
  | invalidLength (length capacity : ℕ)
  deriving DecidableEq

inductive GatewayState
  | stopped | starting | active | stopping | failed
  deriving DecidableEq

def GatewayState.admitsPackets (s : GatewayState) : Bool := s = .active

inductive GatewayError
  | flowTable (error : FlowTableError)
  | tcp (error : TcpStackError)
  | packetIo (error : PacketIoError)
  | packetAdmissionClosed (state : GatewayState)
  | platform (operation message : String)
  | onionUnavailable (message : String)
  | streamIo (operation message : String)
  deriving DecidableEq

/-- A failed or over-long device read, or a closed event channel. -/
def GatewayError.isGatewayScoped : GatewayError → Bool
  | packetIo _ => true
  | platform operation _ => operation = "bridge-events"
  | flowTable _ | tcp _ | packetAdmissionClosed _ | onionUnavailable _ | streamIo .. => false

/-! ### The flow table -/

namespace FlowState

def id : FlowState → FlowId
  | targetBound f | opening f | established f | halfClosed f | closed f | failed f => f

def transition (s : FlowState) (event : FlowEvent) : Except FlowTableError FlowState :=
  match s, event with
  | targetBound f, .open => .ok (opening f)
  | opening f, .establish => .ok (established f)
  | established f, .halfClose => .ok (halfClosed f)
  | established f, .close | halfClosed f, .close => .ok (closed f)
  | targetBound f, .fail | opening f, .fail | established f, .fail | halfClosed f, .fail =>
    .ok (failed f)
  | s, event => .error (.transition s event)

def isTerminal : FlowState → Bool
  | closed _ | failed _ => true
  | targetBound _ | opening _ | established _ | halfClosed _ => false

end FlowState

/-- The bounded table that owns every live flow state once. -/
structure FlowTable where
  capacity : ℕ
  states : BTreeMap FlowId FlowState

namespace FlowTable

/-- Admit one unseen flow, its captured target bound at once. -/
def capture (t : FlowTable) (id : FlowId) : Except FlowTableError FlowTable :=
  if (t.states.get? id).isSome then .error (.duplicate id)
  else if t.states.size ≥ t.capacity then .error (.capacityExhausted t.capacity)
  else .ok { t with states := t.states.insert id (.targetBound id) }

def state (t : FlowTable) (id : FlowId) : Option FlowState := t.states.get? id

/-- Apply an event, and remove the flow if it reaches a terminal state. -/
def transition (t : FlowTable) (id : FlowId) (event : FlowEvent) :
    Except FlowTableError FlowTable :=
  match t.states.get? id with
  | none => .error (.notFound id)
  | some current =>
    (current.transition event).map fun next =>
      if next.isTerminal then { t with states := t.states.remove id }
      else { t with states := t.states.insert id next }

end FlowTable

/-! ### The TCP stack -/

/-- The states of a TCP socket. -/
inductive TcpState
  | closed | listen | synSent | synReceived | established | finWait1 | finWait2 | closeWait
  | closing | lastAck | timeWait
  deriving DecidableEq

/-- The states entered by receiving the client's FIN. -/
def TcpState.isFinished : TcpState → Bool
  | closeWait | lastAck | closing | timeWait => true
  | closed | listen | synSent | synReceived | established | finWait1 | finWait2 => false

/-- Why a socket has nothing to receive: its peer finished, or it is in no state to receive. -/
inductive RecvError
  | finished | invalidState
  deriving DecidableEq

/-- The userspace TCP engine: an interface, its packet queue and its sockets, each named by the
flow that holds it. -/
structure TcpEngine (E : Type) where
  listen : E → FlowId → Option E
  remove : E → FlowId → E
  state : E → FlowId → TcpState
  peekSlice : E → FlowId → ℕ → Except RecvError Bytes
  recv : E → FlowId → ℕ → Except RecvError (ℕ × E)
  sendSlice : E → FlowId → Bytes → Except Unit (ℕ × E)
  close : E → FlowId → E
  abort : E → FlowId → E
  enqueueIngress : E → Bytes → E
  poll : E → ℕ → E

inductive TcpEndpointState
  | closed | listening | handshaking | established | closing
  deriving DecidableEq

namespace TcpEndpointState

def ofTcp : TcpState → TcpEndpointState
  | .closed => closed
  | .listen => listening
  | .synSent | .synReceived => handshaking
  | .established => established
  | .finWait1 | .finWait2 | .closeWait | .closing | .lastAck | .timeWait => closing

/-- The runtime's own exit clock, for states the engine does not time out. -/
def exitClock (s : TcpEndpointState) (flowTimeout : ℕ) : Option ℕ :=
  match s with
  | listening | handshaking => some flowTimeout
  | closed | established | closing => none

end TcpEndpointState

structure TcpEndpoint where
  pendingDeadline : Option ℕ
  lastClientSegment : ℕ
  clientReset : Bool

/-- The greatest duration, in nanoseconds. -/
def durationMax : ℕ := u64Max * 1000000000 + 999999999

/-- The flow, and the flags, of one classified TCP segment. -/
structure TcpSegment where
  flow : FlowId
  syn : Bool
  ack : Bool
  rst : Bool

/-- The segment requests a new connection. -/
def TcpSegment.opensFlow (s : TcpSegment) : Bool := s.syn && !s.ack

inductive FlowRejectReason
  | missingInitialSyn
  | capacityExhausted (limit : ℕ)
  | listenRejected
  deriving DecidableEq

inductive TcpFlowAdmission
  | accepted
  | rejected (reason : FlowRejectReason)

/-- How an endpoint closed before both byte directions shut down. -/
inductive EndpointClosure
  | clientReset | clientSilent | ungraceful
  deriving DecidableEq

structure TcpStack (E : Type) where
  engine : E
  endpoints : BTreeMap FlowId TcpEndpoint
  flowIdleTimeout : ℕ

namespace TcpStack

variable {E : Type} (eng : TcpEngine E)

def poll (t : TcpStack E) (elapsed : ℕ) : TcpStack E :=
  { t with engine := eng.poll t.engine elapsed }

/-- The endpoint of `flow` is in the index, so the engine holds its socket. -/
def socket (t : TcpStack E) (flow : FlowId) : Except TcpStackError Unit :=
  match t.endpoints.get? flow with
  | some _ => .ok ()
  | none => .error (.unknownFlow flow)

def endpointState (t : TcpStack E) (flow : FlowId) : Except TcpStackError TcpEndpointState := do
  t.socket flow
  return .ofTcp (eng.state t.engine flow)

/-- Allocate a listening endpoint for one initial SYN. -/
def admitFlow (t : TcpStack E) (segment : TcpSegment) (elapsed : ℕ) :
    TcpFlowAdmission × TcpStack E :=
  if (t.endpoints.get? segment.flow).isSome then (.accepted, t)
  else if !segment.opensFlow then (.rejected .missingInitialSyn, t)
  else match segment.flow.target with
    | .v6 .. => (.rejected .listenRejected, t)
    | .v4 .. =>
      match eng.listen t.engine segment.flow with
      | none => (.rejected .listenRejected, t)
      | some engine =>
        (.accepted, { t with
          engine
          endpoints := t.endpoints.insert segment.flow
            { pendingDeadline := (TcpEndpointState.listening.exitClock t.flowIdleTimeout).map
                (saturatingAdd durationMax elapsed)
              lastClientSegment := elapsed
              clientReset := false } })

/-- Consume one classified segment of an admitted flow. -/
def ingestSegment (t : TcpStack E) (packet : Bytes) (segment : TcpSegment) (elapsed : ℕ) :
    Except TcpStackError (TcpStack E) :=
  match t.endpoints.get? segment.flow with
  | none => .error (.unknownFlow segment.flow)
  | some endpoint =>
    let endpoint := { endpoint with lastClientSegment := elapsed }
    let t := { t with
      endpoints := t.endpoints.insert segment.flow endpoint
      engine := eng.enqueueIngress t.engine packet }
    let t := t.poll eng elapsed
    -- an RST outside the receive window leaves the endpoint open and is not a reset
    if segment.rst && TcpEndpointState.ofTcp (eng.state t.engine segment.flow) = .closed then
      let endpoint := { endpoint with clientReset := true }
      .ok { t with endpoints := t.endpoints.insert segment.flow endpoint }
    else .ok t

/-- Feed a refused segment to the engine without a listener. -/
def rejectSegment (t : TcpStack E) (packet : Bytes) (elapsed : ℕ) : TcpStack E :=
  { t with engine := eng.enqueueIngress t.engine packet }.poll eng elapsed

def peekApplicationData (t : TcpStack E) (flow : FlowId) (length : ℕ) :
    Except TcpStackError Bytes := do
  t.socket flow
  match eng.peekSlice t.engine flow length with
  | .ok bytes => return bytes
  | .error .finished => return []
  | .error .invalidState => throw (.receiveUnavailable flow)

def commitApplicationRead (t : TcpStack E) (flow : FlowId) (length : ℕ) :
    Except TcpStackError (TcpStack E) := do
  t.socket flow
  let (actual, engine) ← match eng.recv t.engine flow length with
    | .ok (actual, engine) => pure (actual, engine)
    | .error .finished => pure (0, t.engine)
    | .error .invalidState => throw (.receiveUnavailable flow)
  if actual ≠ length then throw (.receiveCommitMismatch flow length actual)
  return { t with engine }

def writeApplicationData (t : TcpStack E) (flow : FlowId) (input : Bytes) :
    Except TcpStackError (ℕ × TcpStack E) := do
  t.socket flow
  match eng.sendSlice t.engine flow input with
  | .ok (written, engine) => return (written, { t with engine })
  | .error () => throw (.sendUnavailable flow)

def closeApplicationWrite (t : TcpStack E) (flow : FlowId) :
    Except TcpStackError (TcpStack E) := do
  t.socket flow
  return { t with engine := eng.close t.engine flow }

/-- The client finished its byte stream with a FIN. -/
def clientFinished (t : TcpStack E) (flow : FlowId) : Except TcpStackError Bool := do
  t.socket flow
  return (eng.state t.engine flow).isFinished

/-- The flows whose pending deadline has passed. -/
def dueFlows (t : TcpStack E) (elapsed : ℕ) : List FlowId :=
  t.endpoints.entries.filterMap fun (flow, endpoint) =>
    (endpoint.pendingDeadline.filter fun deadline => elapsed ≥ deadline).map fun _ => flow

/-- Due flows that are still pending expire; the others lose their deadline. -/
def expireDue (t : TcpStack E) : List FlowId → Except TcpStackError (List FlowId × TcpStack E)
  | [] => .ok ([], t)
  | flow :: due => do
    let state ← t.endpointState eng flow
    if (state.exitClock t.flowIdleTimeout).isSome then
      let (expired, t) ← t.expireDue due
      return (flow :: expired, t)
    else
      let t := match t.endpoints.get? flow with
        | some endpoint =>
          { t with endpoints := t.endpoints.insert flow { endpoint with pendingDeadline := none } }
        | none => t
      t.expireDue due

def endpointClosure (t : TcpStack E) (flow : FlowId) (elapsed : ℕ) :
    Except TcpStackError EndpointClosure :=
  match t.endpoints.get? flow with
  | none => .error (.unknownFlow flow)
  | some endpoint =>
    let idleDeadline := saturatingAdd durationMax endpoint.lastClientSegment t.flowIdleTimeout
    if endpoint.clientReset then .ok .clientReset
    else if elapsed ≥ idleDeadline then .ok .clientSilent
    else .ok .ungraceful

def releaseSocket (t : TcpStack E) (flow : FlowId) : Except TcpStackError (TcpStack E) := do
  t.socket flow
  return { t with engine := eng.remove t.engine flow, endpoints := t.endpoints.remove flow }

def abortFlow (t : TcpStack E) (flow : FlowId) (elapsed : ℕ) :
    Except TcpStackError (TcpStack E) := do
  t.socket flow
  let t := { t with engine := eng.abort t.engine flow }.poll eng elapsed
  t.releaseSocket eng flow

def releaseClosedFlow (t : TcpStack E) (flow : FlowId) :
    Except TcpStackError (Bool × TcpStack E) := do
  let state ← t.endpointState eng flow
  if state ≠ .closed then return (false, t)
  let t ← t.releaseSocket eng flow
  return (true, t)

end TcpStack

/-! ### The bridge -/

/-- What a connector knows of the circuit of an open Onion stream. -/
inductive OnionStreamCondition
  | live
  | stalled
  | failed (cause : String)
  deriving DecidableEq

inductive BridgeCommand
  | data (bytes : Bytes)
  | closeWrite
  deriving DecidableEq

/-- What a bridge reports. Data names the bridge and the number of the read, by which its
consumption is acknowledged. -/
inductive BridgeReport
  | opened
  | data (bytes : Bytes) (consumed : ℕ × ℕ)
  | clientBuffer
  | peerClosed
  | failed (error : GatewayError)
  deriving DecidableEq

/-- A report in the channel, keyed by its four-tuple alone; `source` is the bridge that queued
it, which the runtime does not see. -/
structure BridgeEvent where
  source : ℕ
  flow : FlowId
  report : BridgeReport
  deriving DecidableEq

/-- Where the task of a bridge stands. -/
inductive BridgePhase
  | opening
  | selecting
  | waiting (read : ℕ)
  | writing (bytes : Bytes)
  | shutting
  | ended
  deriving DecidableEq

/-- The task of a bridge; `read` and `written` are the bytes that went each way, and `shut` tells
that the write half of the stream was shut down. -/
structure BridgeTask where
  phase : BridgePhase
  readOpen : Bool
  writeOpen : Bool
  reads : ℕ
  read : Bytes
  written : Bytes
  shut : Bool

/-- A bridge: its identity, the slot of its command queue, and its task. -/
structure BridgeHandle where
  id : ℕ
  slot : Option BridgeCommand
  task : BridgeTask

/-- What may happen to the task next; it stops without a report when a channel of it closes or
it panics. -/
inductive BridgeAction
  | openOk
  | openErr (error : GatewayError)
  | read (bytes : Bytes)
  | readEof
  | readErr (message : String)
  | consumed
  | takeCommand
  | write (count : ℕ)
  | writeErr (message : String)
  | shutdown
  | shutdownErr (message : String)
  | stop

/-- `spawn_bridge`: a task that opens its stream first. -/
def spawnBridge (id : ℕ) : BridgeHandle :=
  ⟨id, none, ⟨.opening, true, true, 0, [], [], false⟩⟩

/-- The loop of the task goes on while a half is open. -/
def BridgeTask.select (t : BridgeTask) : BridgeTask :=
  { t with phase := if t.readOpen || t.writeOpen then .selecting else .ended }

def BridgeTask.fails (t : BridgeTask) (operation message : String) :
    BridgeTask × List BridgeReport :=
  ({ t with phase := .ended }, [.failed (.streamIo operation message)])

inductive TrySend
  | ok (b : BridgeHandle)
  | full
  | closed

namespace BridgeHandle

/-- Queue a command, if the slot is free and the task still receives. -/
def trySend (b : BridgeHandle) (command : BridgeCommand) : TrySend :=
  if b.task.phase = .ended then .closed
  else if b.slot.isSome then .full
  else .ok { b with slot := some command }

/-- One step of `run_bridge`, and what it reports; a step the task is not at does nothing. -/
def act (acknowledged : List (ℕ × ℕ)) (b : BridgeHandle) (a : BridgeAction) :
    BridgeHandle × List BridgeReport :=
  let t := b.task
  match t.phase, a with
  | .opening, .openOk => ({ b with task := t.select }, [.opened])
  | .opening, .openErr error => ({ b with task := { t with phase := .ended } }, [.failed error])
  | .selecting, .read bytes =>
    if t.readOpen ∧ bytes ≠ [] then
      ({ b with task := { t with
          phase := .waiting t.reads, reads := t.reads + 1, read := t.read ++ bytes } },
        [.data bytes (b.id, t.reads)])
    else (b, [])
  | .selecting, .readEof =>
    if t.readOpen then ({ b with task := { t with readOpen := false }.select }, [.peerClosed])
    else (b, [])
  | .selecting, .readErr message =>
    if t.readOpen then
      let (t, reports) := t.fails "read" message
      ({ b with task := t }, reports)
    else (b, [])
  | .waiting read, .consumed =>
    if (b.id, read) ∈ acknowledged then ({ b with task := t.select }, []) else (b, [])
  | .selecting, .takeCommand =>
    match b.slot with
    | none => (b, [])
    | some (.data bytes) =>
      -- data behind a close of the write half is dropped
      if t.writeOpen then ({ b with slot := none, task := { t with phase := .writing bytes } }, [])
      else ({ b with slot := none }, [])
    | some .closeWrite =>
      if t.writeOpen then ({ b with slot := none, task := { t with phase := .shutting } }, [])
      else ({ b with slot := none, task := { t with writeOpen := false }.select }, [])
  | .writing bytes, .write count =>
    let t := { t with written := t.written ++ bytes.take count }
    if bytes.drop count = [] then ({ b with task := t.select }, [.clientBuffer])
    else ({ b with task := { t with phase := .writing (bytes.drop count) } }, [])
  | .writing _, .writeErr message =>
    let (t, reports) := t.fails "write" message
    ({ b with task := t }, reports)
  | .shutting, .shutdown =>
    ({ b with task := { t with shut := true, writeOpen := false }.select }, [])
  | .shutting, .shutdownErr message =>
    let (t, reports) := t.fails "shutdown" message
    ({ b with task := t }, reports)
  | _, .stop => ({ b with task := { t with phase := .ended } }, [])
  | _, _ => (b, [])

/-- Several steps of the task. -/
def acts (acknowledged : List (ℕ × ℕ)) (b : BridgeHandle) (as : List BridgeAction) :
    BridgeHandle × List BridgeReport :=
  as.foldl (fun (b, reports) a =>
    let (b, more) := b.act acknowledged a
    (b, reports ++ more)) (b, [])

end BridgeHandle

/-! ### How a flow's end is named -/

/-- What a captured flow was waiting on. -/
inductive FlowPhase
  | handshake
  | opening
  | «open» (condition : OnionStreamCondition)

/-- The cause of a captured flow being reset. -/
inductive FlowResetReason
  | handshakeExpired | openExpired | idleTimeout | streamStalled | clientReset | ungracefulClose
  | onionOpenFailed (message : String)
  | streamFailed (message : String)
  | streamReset (cause : String)
  | bridgeClosed | gatewayStopped
  deriving DecidableEq

/-- The observed circuit failure of a flow, which dominates every local cause. -/
def failure : FlowPhase → Option FlowResetReason
  | .open (.failed cause) => some (.streamReset cause)
  | .handshake | .opening | .open .live | .open .stalled => none

def localReason : FlowPhase → EndpointClosure → FlowResetReason
  | _, .clientReset => .clientReset
  | _, .ungraceful => .ungracefulClose
  | .handshake, .clientSilent => .handshakeExpired
  | .opening, .clientSilent => .openExpired
  | .open .stalled, .clientSilent => .streamStalled
  | .open .live, .clientSilent | .open (.failed _), .clientSilent => .idleTimeout

def closureReason (phase : FlowPhase) (closure : EndpointClosure) : FlowResetReason :=
  (failure phase).getD (localReason phase closure)

/-- The reason of a flow whose bridge failed; `display` gives the text of an error. -/
def bridgeReason (display : GatewayError → String) (phase : FlowPhase) (error : GatewayError) :
    FlowResetReason :=
  (failure phase).getD <| match error with
    | .streamIo operation message => .streamFailed (operation ++ ": " ++ message)
    | .onionUnavailable message => .onionOpenFailed message
    | other => .onionOpenFailed (display other)

def eofReason (condition : OnionStreamCondition) : Option FlowResetReason :=
  failure (.open condition)

/-! ### The runtime -/

structure PendingChunk where
  bytes : Bytes
  offset : ℕ
  consumed : ℕ × ℕ

namespace PendingChunk

def new (bytes : Bytes) (consumed : ℕ × ℕ) : PendingChunk := ⟨bytes, 0, consumed⟩

def remaining (c : PendingChunk) : Bytes := c.bytes.drop c.offset

def advance (c : PendingChunk) (count : ℕ) : PendingChunk :=
  { c with offset := min (c.offset + count) c.bytes.length }

def isEmpty (c : PendingChunk) : Bool := c.offset ≥ c.bytes.length

end PendingChunk

/-- The runtime's half of one captured flow. The probe is named by the bridge that opened its
stream; of the buffer only the length matters, for a peek overwrites it. -/
structure RuntimeFlow where
  bridge : Option BridgeHandle
  probe : Option ℕ
  clientToOnionBuffer : Option ℕ
  pendingToClient : List PendingChunk
  clientEofSent : Bool
  onionEofSeen : Bool
  clientWriteClosed : Bool

def RuntimeFlow.captured (chunkBytes : ℕ) : RuntimeFlow :=
  ⟨none, none, some chunkBytes, [], false, false, false⟩

def bridgeIoChunkBytes : ℕ := 16 * 1024

structure GatewayServer where
  state : GatewayState
  flows : FlowTable
  lastFlowReset : Option FlowResetReason

namespace GatewayServer

def captureFlow (s : GatewayServer) (id : FlowId) : Except GatewayError GatewayServer :=
  if !s.state.admitsPackets then .error (.packetAdmissionClosed s.state)
  else match s.flows.capture id with
    | .ok flows => .ok { s with flows }
    | .error error => .error (.flowTable error)

def transitionFlow (s : GatewayServer) (id : FlowId) (event : FlowEvent) :
    Except GatewayError GatewayServer :=
  match s.flows.transition id event with
  | .ok flows => .ok { s with flows }
  | .error error => .error (.flowTable error)

def flowState (s : GatewayServer) (id : FlowId) : Option FlowState := s.flows.state id

/-- Record why a flow is reset, and fail it if it is still tracked. -/
def resetFlow (s : GatewayServer) (id : FlowId) (reason : FlowResetReason) :
    Except GatewayError GatewayServer := do
  let s ← if (s.flows.state id).isSome then s.transitionFlow id .fail else pure s
  return { s with lastFlowReset := some reason }

end GatewayServer

/-- The runtime, with the channel of bridge events, the acknowledgements it sent and the number
of bridges it spawned. -/
structure GatewayRuntime (E : Type) where
  tcpBufferBytes : ℕ
  server : GatewayServer
  tcp : TcpStack E
  flows : BTreeMap FlowId RuntimeFlow
  bridgeEvents : List BridgeEvent
  acknowledged : List (ℕ × ℕ)
  bridges : ℕ

inductive LoopInput
  | packet (result : Except PacketIoError ℕ)
  | bridge (event : Option BridgeEvent)
  | control
  | tick

inductive ReconcileScope
  | none
  | flow (id : FlowId)
  | all

inductive PacketOutcome
  | consumed (flow : FlowId)
  | dropped
  | flowRejected (flow : FlowId) (reason : FlowRejectReason)

/-- What the task of a bridge does while the runtime hands it client bytes: before the data
command is tried, and between it and the close of the write half. -/
structure Race where
  beforeData : List BridgeAction
  beforeClose : List BridgeAction

/-- What one turn of the loop meets: the clock, the probes' readings, the bridges running beside
it, the order a table is walked in, the classifier of packets and the texts of errors. -/
structure StepEnv where
  elapsed : ℕ
  condition : ℕ → OnionStreamCondition
  race : FlowId → Race
  order : List FlowId → List FlowId
  order_perm : ∀ l, (order l).Perm l
  classify : Bytes → Option TcpSegment
  display : GatewayError → String

def liftTcp {α : Type} : Except TcpStackError α → Except GatewayError α
  | .ok a => .ok a
  | .error error => .error (.tcp error)

namespace GatewayRuntime

variable {E : Type} (eng : TcpEngine E) (env : StepEnv)

def chunkBytes (r : GatewayRuntime E) : ℕ := min r.tcpBufferBytes bridgeIoChunkBytes

def runtimeFlow (r : GatewayRuntime E) (flow : FlowId) : Except GatewayError RuntimeFlow :=
  match r.flows.get? flow with
  | some runtime => .ok runtime
  | none => .error (.tcp (.unknownFlow flow))

def setFlow (r : GatewayRuntime E) (flow : FlowId) (runtime : RuntimeFlow) : GatewayRuntime E :=
  { r with flows := r.flows.insert flow runtime }

/-- The bridge of `flow` takes some steps. -/
def runBridge (r : GatewayRuntime E) (flow : FlowId) (as : List BridgeAction) :
    GatewayRuntime E :=
  match r.flows.get? flow with
  | none => r
  | some runtime =>
    match runtime.bridge with
    | none => r
    | some b =>
      let (b, reports) := b.acts r.acknowledged as
      { r.setFlow flow { runtime with bridge := some b } with
        bridgeEvents := r.bridgeEvents ++ reports.map fun report => ⟨b.id, flow, report⟩ }

/-- `φ` of `flow` now. -/
def phase (r : GatewayRuntime E) (flow : FlowId) : FlowPhase :=
  match (r.flows.get? flow).bind (·.probe) with
  | some probe => .open (env.condition probe)
  | none => if r.server.flowState flow = some (.opening flow) then .opening else .handshake

/-- Reset one captured flow for `reason`: stop its bridge, fail its lifecycle, abort its
endpoint. -/
def failFlow (r : GatewayRuntime E) (flow : FlowId) (reason : FlowResetReason) :
    Except GatewayError (GatewayRuntime E) := do
  let server ← r.server.resetFlow flow reason
  let r := { r with flows := r.flows.remove flow, server }
  match r.tcp.endpointState eng flow with
  | .ok _ =>
    let tcp ← liftTcp (r.tcp.abortFlow eng flow env.elapsed)
    return { r with tcp }
  | .error (.unknownFlow _) => return r
  | .error error => throw (.tcp error)

def markHalfClosed (r : GatewayRuntime E) (flow : FlowId) :
    Except GatewayError (GatewayRuntime E) := do
  if r.server.flowState flow = some (.established flow) then
    let server ← r.server.transitionFlow flow .halfClose
    return { r with server }
  return r

/-- The bytes of the chunks still to be written. -/
def pendingBytes (l : List PendingChunk) : ℕ := (l.map fun c => c.remaining.length).sum

/-- Write pending chunks until one is not taken whole; every round but the last writes a byte,
which `rounds` counts. -/
def flushChunks (flow : FlowId) : ℕ → GatewayRuntime E → Except GatewayError (GatewayRuntime E)
  | 0, r => .ok r
  | rounds + 1, r =>
    match r.flows.get? flow with
    | none => .ok r
    | some runtime =>
      match runtime.pendingToClient with
      | [] => .ok r
      | chunk :: rest =>
        let attempt := if chunk.isEmpty then .ok (0, r.tcp)
          else r.tcp.writeApplicationData eng flow chunk.remaining
        match attempt with
        | .error (.sendUnavailable _) => .ok r
        | .error error => .error (.tcp error)
        | .ok (written, tcp) =>
          let chunk := chunk.advance written
          let r := { r with tcp }
          let r := if chunk.isEmpty then
              { r.setFlow flow { runtime with pendingToClient := rest } with
                acknowledged := chunk.consumed :: r.acknowledged }
            else r.setFlow flow { runtime with pendingToClient := chunk :: rest }
          if written = 0 then .ok r
          else flushChunks flow rounds { r with tcp := r.tcp.poll eng env.elapsed }

def flushPendingToClient (r : GatewayRuntime E) (flow : FlowId) :
    Except GatewayError (GatewayRuntime E) := do
  match r.flows.get? flow with
  | none => return r
  | some runtime =>
    let r ← flushChunks eng env flow (pendingBytes runtime.pendingToClient + 1) r
    match r.flows.get? flow with
    | none => return r
    | some runtime =>
      if runtime.onionEofSeen && runtime.pendingToClient.isEmpty && !runtime.clientWriteClosed then
        let tcp ← liftTcp (r.tcp.closeApplicationWrite eng flow)
        let r := { r with tcp }.setFlow flow { runtime with clientWriteClosed := true }
        return { r with tcp := r.tcp.poll eng env.elapsed }
      else return r

/-- Start the bridge of a flow whose handshake completed. -/
def maybeStartBridge (r : GatewayRuntime E) (flow : FlowId) :
    Except GatewayError (GatewayRuntime E) := do
  let state ← liftTcp (r.tcp.endpointState eng flow)
  if state ≠ .established ∨ r.server.flowState flow ≠ some (.targetBound flow) then
    return r
  let server ← r.server.transitionFlow flow .open
  let r := { r with server }
  let runtime ← r.runtimeFlow flow
  return { r.setFlow flow { runtime with bridge := some (spawnBridge r.bridges) } with
    bridges := r.bridges + 1 }

/-- The bridge of a flow that is open. -/
def flowBridge (r : GatewayRuntime E) (flow : FlowId) : Except GatewayError BridgeHandle := do
  let runtime ← r.runtimeFlow flow
  match runtime.bridge with
  | some b => return b
  | none => throw (.tcp (.unknownFlow flow))

def setBridge (r : GatewayRuntime E) (flow : FlowId) (b : BridgeHandle) : GatewayRuntime E :=
  match r.flows.get? flow with
  | some runtime => r.setFlow flow { runtime with bridge := some b }
  | none => r

/-- Forward the client's FIN, once. -/
def driveClientFin (r : GatewayRuntime E) (flow : FlowId) :
    Except GatewayError (GatewayRuntime E) := do
  let finished ← liftTcp (r.tcp.clientFinished eng flow)
  let shouldClose := match r.flows.get? flow with
    | some runtime => !runtime.clientEofSent
    | none => false
  if !(finished && shouldClose) then return r
  let r := r.runBridge flow (env.race flow).beforeClose
  let b ← r.flowBridge flow
  match b.trySend .closeWrite with
  | .ok b =>
    let r := r.setBridge flow b
    let runtime ← r.runtimeFlow flow
    (r.setFlow flow { runtime with clientEofSent := true }).markHalfClosed flow
  | .full => return r
  | .closed => r.failFlow eng env flow .bridgeClosed

/-- The bytes of the client that wait, none while the socket cannot receive. -/
def peekClient (r : GatewayRuntime E) (flow : FlowId) (buffer : ℕ) : Except GatewayError Bytes :=
  match r.tcp.peekApplicationData eng flow buffer with
  | .ok bytes => .ok bytes
  | .error (.receiveUnavailable _) => .ok []
  | .error error => .error (.tcp error)

/-- Hand one chunk to the bridge, and the client's FIN behind it. -/
def driveClientBytes (r : GatewayRuntime E) (flow : FlowId) (bytes : Bytes) :
    Except GatewayError (GatewayRuntime E) := do
  let r := r.runBridge flow (env.race flow).beforeData
  let b ← r.flowBridge flow
  match b.trySend (.data bytes) with
  | .ok b =>
    let tcp ← liftTcp (r.tcp.commitApplicationRead eng flow bytes.length)
    let r := { r with tcp }.setBridge flow b
    r.driveClientFin eng env flow
  | .full =>
    let runtime ← r.runtimeFlow flow
    return r.setFlow flow { runtime with clientToOnionBuffer := some r.chunkBytes }
  | .closed => r.failFlow eng env flow .bridgeClosed

/-- Hand the client's bytes to the bridge, one chunk at a time, and its FIN behind them. -/
def driveClientToOnion (r : GatewayRuntime E) (flow : FlowId) :
    Except GatewayError (GatewayRuntime E) := do
  if r.server.flowState flow ≠ some (.established flow) ∧
      r.server.flowState flow ≠ some (.halfClosed flow) then
    return r
  match r.flows.get? flow with
  | none => return r
  | some runtime =>
    match runtime.clientToOnionBuffer with
    | none => return r
    | some buffer =>
      let r := r.setFlow flow { runtime with clientToOnionBuffer := none }
      let bytes ← r.peekClient eng flow buffer
      if bytes = [] then
        let runtime ← r.runtimeFlow flow
        let r := r.setFlow flow { runtime with clientToOnionBuffer := some buffer }
        r.driveClientFin eng env flow
      else if bytes.length > buffer then
        throw (.tcp (.receiveCommitMismatch flow bytes.length buffer))
      else r.driveClientBytes eng env flow bytes

def finishIfClosed (r : GatewayRuntime E) (flow : FlowId) :
    Except GatewayError (GatewayRuntime E) := do
  let state ← liftTcp (r.tcp.endpointState eng flow)
  if state ≠ .closed then return r
  let graceful := match r.flows.get? flow with
    | some runtime => runtime.clientEofSent && runtime.onionEofSeen
    | none => false
  if !graceful then
    let closure ← liftTcp (r.tcp.endpointClosure flow env.elapsed)
    r.failFlow eng env flow (closureReason (r.phase env flow) closure)
  else
    let r := { r with flows := r.flows.remove flow }
    let server ← r.server.transitionFlow flow .close
    let (_, tcp) ← liftTcp (r.tcp.releaseClosedFlow eng flow)
    return { r with server, tcp }

def reconcileFlow (r : GatewayRuntime E) (flow : FlowId) :
    Except GatewayError (GatewayRuntime E) := do
  if (r.flows.get? flow).isNone then return r
  let r ← r.maybeStartBridge eng flow
  let r ← r.flushPendingToClient eng env flow
  let r ← r.driveClientToOnion eng env flow
  r.finishIfClosed eng env flow

def reconcileFlows (r : GatewayRuntime E) : List FlowId → Except GatewayError (GatewayRuntime E)
  | [] => .ok r
  | flow :: flows => do
    let r ← r.reconcileFlow eng env flow
    r.reconcileFlows flows

def reconcile (r : GatewayRuntime E) : ReconcileScope → Except GatewayError (GatewayRuntime E)
  | .none => .ok r
  | .flow flow => r.reconcileFlow eng env flow
  | .all => r.reconcileFlows eng env (env.order (r.flows.entries.map Prod.fst))

/-- Admit a flow into the three tables, or say why it is refused. -/
def admitFlow (r : GatewayRuntime E) (segment : TcpSegment) :
    Except GatewayError (Option FlowRejectReason × GatewayRuntime E) :=
  match r.server.captureFlow segment.flow with
  | .error (.flowTable (.capacityExhausted limit)) => .ok (some (.capacityExhausted limit), r)
  | .error error => .error error
  | .ok server =>
    match r.tcp.admitFlow eng segment env.elapsed with
    | (.accepted, tcp) =>
      .ok (none, { r with server, tcp }.setFlow segment.flow (.captured r.chunkBytes))
    | (.rejected reason, tcp) => do
      let server ← server.transitionFlow segment.flow .fail
      return (some reason, { r with server, tcp })

def ingestPacket (r : GatewayRuntime E) (packet : Bytes) :
    Except GatewayError (PacketOutcome × GatewayRuntime E) := do
  match env.classify packet with
  | none => return (.dropped, r)
  | some segment =>
    if (r.flows.get? segment.flow).isNone then
      if !segment.opensFlow then
        return (.flowRejected segment.flow .missingInitialSyn,
          { r with tcp := r.tcp.rejectSegment eng packet env.elapsed })
      match ← r.admitFlow eng env segment with
      | (some reason, r) =>
        return (.flowRejected segment.flow reason,
          { r with tcp := r.tcp.rejectSegment eng packet env.elapsed })
      | (none, r) =>
        let tcp ← liftTcp (r.tcp.ingestSegment eng packet segment env.elapsed)
        return (.consumed segment.flow, { r with tcp })
    else
      let tcp ← liftTcp (r.tcp.ingestSegment eng packet segment env.elapsed)
      return (.consumed segment.flow, { r with tcp })

def handleBridgeEvent (r : GatewayRuntime E) (event : BridgeEvent) :
    Except GatewayError (ReconcileScope × GatewayRuntime E) := do
  let flow := event.flow
  match event.report with
  | .opened =>
    if r.server.flowState flow = some (.opening flow) then
      let r := match r.flows.get? flow with
        | some runtime => r.setFlow flow { runtime with probe := some event.source }
        | none => r
      let server ← r.server.transitionFlow flow .establish
      return (.flow flow, { r with server })
    return (.flow flow, r)
  | .data bytes consumed =>
    match r.flows.get? flow with
    | none => return (.none, r)
    | some runtime =>
      let pending := runtime.pendingToClient ++ [PendingChunk.new bytes consumed]
      let r ← (r.setFlow flow { runtime with pendingToClient := pending }).flushPendingToClient
        eng env flow
      return (.flow flow, r)
  | .clientBuffer =>
    match r.flows.get? flow with
    | none => return (.none, r)
    | some runtime =>
      return (.flow flow, r.setFlow flow { runtime with clientToOnionBuffer := some r.chunkBytes })
  | .peerClosed =>
    match r.flows.get? flow with
    | none => return (.none, r)
    | some runtime =>
      -- an EOF read while the probe reads `Failed` is that failure
      match runtime.probe.bind fun probe => eofReason (env.condition probe) with
      | some reason =>
        let r ← r.failFlow eng env flow reason
        return (.none, r)
      | none =>
        let r ← (r.setFlow flow { runtime with onionEofSeen := true }).markHalfClosed flow
        return (.flow flow, r)
  | .failed error =>
    if (r.flows.get? flow).isNone then return (.none, r)
    let r ← r.failFlow eng env flow (bridgeReason env.display (r.phase env flow) error)
    return (.none, r)

/-- Fail every expired flow. -/
def failExpired (r : GatewayRuntime E) : List FlowId → Except GatewayError (GatewayRuntime E)
  | [] => .ok r
  | flow :: flows => do
    let r ← r.failFlow eng env flow (closureReason (r.phase env flow) .clientSilent)
    r.failExpired flows

def processInput (r : GatewayRuntime E) (packetBuffer : Bytes) (input : LoopInput) :
    Except GatewayError (ReconcileScope × GatewayRuntime E) :=
  match input with
  | .packet (.error error) => .error (.packetIo error)
  | .packet (.ok length) =>
    if length > packetBuffer.length then
      .error (.packetIo (.invalidLength length packetBuffer.length))
    else do
      match ← r.ingestPacket eng env (packetBuffer.take length) with
      | (.consumed flow, r) => return (.flow flow, r)
      | (.dropped, r) => return (.none, r)
      | (.flowRejected .., r) => return (.none, r)
  | .bridge none =>
    .error (.platform "bridge-events" "gateway bridge event channel closed")
  | .bridge (some event) => r.handleBridgeEvent eng env event
  | .control => .ok (.none, r)
  | .tick => do
    let tcp := r.tcp.poll eng env.elapsed
    let (expired, tcp) ← liftTcp (tcp.expireDue eng (env.order (tcp.dueFlows env.elapsed)))
    let r ← { r with tcp }.failExpired eng env expired
    return (.all, r)

/-- One turn of the loop: process the input, then reconcile what it asks for. -/
def turn (r : GatewayRuntime E) (packetBuffer : Bytes) (input : LoopInput) :
    Except GatewayError (GatewayRuntime E) := do
  let (scope, r) ← r.processInput eng env packetBuffer input
  r.reconcile eng env scope

end GatewayRuntime

end Rings.Gateway
