import Rings.GatewayTables

/-!
Runs of the gateway.

The loop turns, the bridges step beside it, and a bridge that was aborted may still queue what it
was about to report. Every turn keeps the three tables in agreement or ends the gateway: on its
device or its event channel, or in a reconciliation that meets a bridge already ended.
-/

namespace Rings.Gateway

namespace GatewayRuntime

variable {E : Type} {eng : TcpEngine E} {env : StepEnv} {r r' : GatewayRuntime E} {flow : FlowId}
  {n : ℕ}

/-! ### One turn -/

/-- No reconciliation of the walk meets a bridge that ended. -/
def LiveWalk (eng : TcpEngine E) (env : StepEnv) (r : GatewayRuntime E) : List FlowId → Prop
  | [] => True
  | flow :: flows => ¬ MeetsEnded eng env r flow ∧
      ∀ m, r.reconcileFlow eng env flow = .ok m → LiveWalk eng env m flows

/-- No reconciliation of the walk forwards a FIN past bytes that wait. -/
def OrderlyWalk (eng : TcpEngine E) (env : StepEnv) (r : GatewayRuntime E) : List FlowId → Prop
  | [] => True
  | flow :: flows => ¬ MeetsOvertaking eng env r flow ∧
      ∀ m, r.reconcileFlow eng env flow = .ok m → OrderlyWalk eng env m flows

/-- No reconciliation of the scope forwards a FIN past bytes that wait. -/
def OrderlyScope (eng : TcpEngine E) (env : StepEnv) (r : GatewayRuntime E) :
    ReconcileScope → Prop
  | .none => True
  | .flow flow => ¬ MeetsOvertaking eng env r flow
  | .all => OrderlyWalk eng env r (env.order (r.flows.entries.map Prod.fst))

/-- No reconciliation of the scope meets a bridge that ended. -/
def LiveScope (eng : TcpEngine E) (env : StepEnv) (r : GatewayRuntime E) : ReconcileScope → Prop
  | .none => True
  | .flow flow => ¬ MeetsEnded eng env r flow
  | .all => LiveWalk eng env r (env.order (r.flows.entries.map Prod.fst))

/-- No reconciliation of the turn meets a bridge that ended. -/
def LiveTurn (eng : TcpEngine E) (env : StepEnv) (r : GatewayRuntime E) (packetBuffer : Bytes)
    (input : LoopInput) : Prop :=
  ∀ scope m, r.processInput eng env packetBuffer input = .ok (scope, m) →
    LiveScope eng env m scope

lemma reconcileFlows_cases (heng : eng.PeeksWhatItReceives) (h : r.Synced n) (l : List FlowId) :
    (LiveWalk eng env r l ∧
        Yields (r.reconcileFlows eng env l) (Runs eng (OrderlyWalk eng env r l) r)) ∨
      (¬ LiveWalk eng env r l ∧
        ∃ flow, r.reconcileFlows eng env l = .error (.tcp (.unknownFlow flow))) := by
  induction l generalizing r with
  | nil => exact Or.inl ⟨trivial, yields_ok.2 .refl⟩
  | cons flow l ih =>
    unfold reconcileFlows LiveWalk
    rcases reconcileFlow_cases heng env h flow with ⟨hlive, m, hm, hrm⟩ | ⟨hmeets, herr⟩
    · have hwalk : (∀ n, r.reconcileFlow eng env flow = .ok n → LiveWalk eng env n l) ↔
          LiveWalk eng env m l := by
        rw [hm]
        simp
      rw [hwalk, hm]
      rcases ih (h.runs hrm) with ⟨hw, o, ho, hmo⟩ | ⟨hw, g, hg⟩
      · refine Or.inl ⟨⟨hlive, hw⟩, o, ho, (hrm.mono fun hord => hord.1).trans ?_⟩
        exact hmo.mono fun hord => hord.2 m hm
      · exact Or.inr ⟨fun hc => hw hc.2, g, hg⟩
    · rw [herr]
      exact Or.inr ⟨fun hc => hc.1 hmeets, flow, rfl⟩

lemma reconcile_cases (heng : eng.PeeksWhatItReceives) (env : StepEnv) (h : r.Synced n)
    (scope : ReconcileScope) :
    (LiveScope eng env r scope ∧
        Yields (r.reconcile eng env scope) (Runs eng (OrderlyScope eng env r scope) r)) ∨
      (¬ LiveScope eng env r scope ∧
        ∃ flow, r.reconcile eng env scope = .error (.tcp (.unknownFlow flow))) := by
  cases scope with
  | none => exact Or.inl ⟨trivial, yields_ok.2 .refl⟩
  | flow flow =>
    rcases reconcileFlow_cases heng env h flow with hlive | ⟨hmeets, herr⟩
    · exact Or.inl hlive
    · exact Or.inr ⟨not_not.2 hmeets, flow, herr⟩
  | all => exact reconcileFlows_cases heng h _

/-- An input is taken, or it is one that ends the gateway: a device read that failed or is too
long, or the end of the event channel. -/
lemma processInput_cases (eng : TcpEngine E) (env : StepEnv) (h : r.Synced n)
    (packetBuffer : Bytes) (input : LoopInput) :
    Yields (r.processInput eng env packetBuffer input) (fun p => p.2.Synced n) ∨
      ∃ error, error.isGatewayScoped = true ∧
        r.processInput eng env packetBuffer input = .error error := by
  rcases input with (error | length) | (_ | e) | _ | _
  · exact Or.inr ⟨_, rfl, rfl⟩
  · unfold processInput
    simp only
    split
    · exact Or.inr ⟨_, rfl, rfl⟩
    · obtain ⟨⟨outcome, m⟩, hm, hrm⟩ := ingestPacket_yields eng env h
        (packetBuffer.take length) True
      rw [hm]
      refine Or.inl ?_
      cases outcome <;> exact yields_ok.2 (h.runs hrm)
  · exact Or.inr ⟨_, by decide, rfl⟩
  · exact Or.inl ((handleBridgeEvent_yields eng env h e).mono fun p hp => h.handles hp)
  · exact Or.inl (yields_ok.2 h)
  · exact Or.inl ((tick_yields eng env h packetBuffer True).mono fun p hp => h.runs hp)

/-! ### Runs -/

def fresh (tcpBufferBytes flowIdleTimeout maxFlows : ℕ) (engine : E) : GatewayRuntime E where
  tcpBufferBytes
  server := ⟨.active, ⟨maxFlows, .empty⟩, none⟩
  tcp := ⟨engine, .empty, flowIdleTimeout⟩
  flows := .empty
  bridgeEvents := []
  acknowledged := []
  bridges := 0

/-- What happens next: a turn of the loop, a step of a bridge, or an event that the task of an
aborted bridge was still queueing. -/
inductive GatewayStep
  | turn (env : StepEnv) (packetBuffer : Bytes) (input : LoopInput)
  | bridge (flow : FlowId) (a : BridgeAction)
  | straggle (event : BridgeEvent)

/-- The bridge that queued the event was spawned before, and is not the bridge of the flow. -/
def isEarlier (r : GatewayRuntime E) (e : BridgeEvent) : Bool :=
  decide (e.source < r.bridges) &&
    ((r.flows.get? e.flow).bind (·.bridge)).all fun b => b.id ≠ e.source

/-- A turn takes the event it handles from the channel, which hands out the first. -/
def takeInput (r : GatewayRuntime E) : LoopInput → Option (GatewayRuntime E)
  | .bridge (some event) =>
    if r.bridgeEvents.head? = some event then
      some { r with bridgeEvents := r.bridgeEvents.tail }
    else none
  | .packet _ | .bridge none | .control | .tick => some r

def step (eng : TcpEngine E) (r : GatewayRuntime E) :
    GatewayStep → Except GatewayError (GatewayRuntime E)
  | .turn env packetBuffer input =>
    match r.takeInput input with
    | some r => r.turn eng env packetBuffer input
    | none => .ok r
  | .bridge flow a => .ok (r.runBridge flow [a])
  | .straggle event =>
    .ok (if r.isEarlier event && BridgeHandle.namesSource event.source event.report then
      { r with bridgeEvents := r.bridgeEvents ++ [event] }
    else r)

def run (eng : TcpEngine E) (r : GatewayRuntime E) :
    List GatewayStep → Except GatewayError (GatewayRuntime E)
  | [] => .ok r
  | s :: steps => do
    let r ← r.step eng s
    r.run eng steps

def LiveStep (eng : TcpEngine E) (r : GatewayRuntime E) : GatewayStep → Prop
  | .turn env packetBuffer input =>
    ∀ m, r.takeInput input = some m → LiveTurn eng env m packetBuffer input
  | .bridge .. | .straggle _ => True

/-- No reconciliation of the run meets a bridge that ended while client bytes or the client's FIN
wait for it. -/
def LiveRun (eng : TcpEngine E) (r : GatewayRuntime E) : List GatewayStep → Prop
  | [] => True
  | s :: steps => LiveStep eng r s ∧ ∀ m, r.step eng s = .ok m → LiveRun eng m steps

/-- The three tables hold the same flows, and at most `n`. -/
structure TablesAgree (r : GatewayRuntime E) (n : ℕ) : Prop where
  endpoints : ∀ g, (r.tcp.endpoints.get? g).isSome = (r.flows.get? g).isSome
  states : ∀ g, (r.server.flows.states.get? g).isSome = (r.flows.get? g).isSome
  flows_le : r.flows.size ≤ n
  endpoints_le : r.tcp.endpoints.size ≤ n
  states_le : r.server.flows.states.size ≤ n

/-- The tables agree, or the gateway ended on its device or its event channel. -/
def EndsWell (n : ℕ) : Except GatewayError (GatewayRuntime E) → Prop
  | .ok r => r.TablesAgree n
  | .error error => error.isGatewayScoped = true

lemma Synced.tablesAgree (h : r.Synced n) : r.TablesAgree n := by
  have hends : ∀ g, (r.tcp.endpoints.get? g).isSome = (r.flows.get? g).isSome := by
    intro g
    have hc := h.coherent g
    unfold CoherentAt at hc
    split at hc <;> simp_all
  have hstates : ∀ g, (r.server.flows.states.get? g).isSome = (r.flows.get? g).isSome := by
    intro g
    have hc := h.coherent g
    unfold CoherentAt GatewayServer.flowState FlowTable.state at hc
    split at hc <;> simp_all
  have hsize := h.bounded
  refine ⟨hends, hstates, ?_, ?_, hsize⟩
  · rwa [← BTreeMap.size_congr hstates]
  · rwa [BTreeMap.size_congr hends, ← BTreeMap.size_congr hstates]

lemma synced_fresh (tcpBufferBytes flowIdleTimeout maxFlows : ℕ) (engine : E) :
    (fresh tcpBufferBytes flowIdleTimeout maxFlows engine).Synced maxFlows :=
  ⟨rfl, rfl, Nat.zero_le _, fun _ => trivial⟩

lemma Synced.queue (h : r.Synced n) (l : List BridgeEvent) :
    { r with bridgeEvents := l }.Synced n :=
  ⟨h.active, h.capacity, h.bounded, h.coherent⟩

lemma Synced.takeInput (h : r.Synced n) {input : LoopInput} (ht : r.takeInput input = some r') :
    r'.Synced n := by
  unfold GatewayRuntime.takeInput at ht
  split at ht
  · split at ht
    · cases ht
      exact h.queue _
    · cases ht
  all_goals
    cases ht
    exact h

/-- A turn keeps the tables in agreement or ends the gateway as it may, unless it meets a bridge
that ended. -/
lemma turn_cases (heng : eng.PeeksWhatItReceives) (h : r.Synced n) (packetBuffer : Bytes)
    (input : LoopInput) :
    (LiveTurn eng env r packetBuffer input ∧
        (Yields (r.turn eng env packetBuffer input) (fun r' => r'.Synced n) ∨
          ∃ error, error.isGatewayScoped = true ∧
            r.turn eng env packetBuffer input = .error error)) ∨
      (¬ LiveTurn eng env r packetBuffer input ∧
        ∃ flow, r.turn eng env packetBuffer input = .error (.tcp (.unknownFlow flow))) := by
  unfold turn LiveTurn
  rcases processInput_cases eng env h packetBuffer input with
    ⟨⟨scope, m⟩, hm, hs⟩ | ⟨error, hscoped, herr⟩
  · have hscope : (∀ scope' m', r.processInput eng env packetBuffer input = .ok (scope', m') →
        LiveScope eng env m' scope') ↔ LiveScope eng env m scope := by
      rw [hm]
      constructor
      · exact fun hall => hall scope m rfl
      · rintro hlive _ _ ⟨⟩
        exact hlive
    rw [hscope, hm]
    rcases reconcile_cases heng env hs scope with ⟨hlive, m', hm', hruns⟩ | hmeets
    · exact Or.inl ⟨hlive, Or.inl ⟨m', hm', hs.runs hruns⟩⟩
    · exact Or.inr hmeets
  · rw [herr]
    exact Or.inl ⟨fun _ _ hc => by simp at hc, Or.inr ⟨error, hscoped, rfl⟩⟩

/-- A step keeps the tables in agreement or ends the gateway as it may, unless it meets a bridge
that ended. -/
lemma step_cases (heng : eng.PeeksWhatItReceives) (h : r.Synced n) (s : GatewayStep) :
    (LiveStep eng r s ∧ (Yields (r.step eng s) (fun r' => r'.Synced n) ∨
        ∃ error, error.isGatewayScoped = true ∧ r.step eng s = .error error)) ∨
      (¬ LiveStep eng r s ∧ ∃ flow, r.step eng s = .error (.tcp (.unknownFlow flow))) := by
  cases s with
  | turn env packetBuffer input =>
    rcases ht : r.takeInput input with _ | m
    · have hlive : LiveStep eng r (.turn env packetBuffer input) := fun _ hm => by simp [ht] at hm
      refine Or.inl ⟨hlive, Or.inl ?_⟩
      simp only [step, ht]
      exact yields_ok.2 h
    · have hlive : LiveStep eng r (.turn env packetBuffer input) ↔
          LiveTurn eng env m packetBuffer input := by
        simp [LiveStep, ht]
      rw [hlive]
      simp only [step, ht]
      exact turn_cases heng (h.takeInput ht) packetBuffer input
  | bridge flow a => exact Or.inl ⟨trivial, Or.inl (yields_ok.2 (h.keeps (keeps_runBridge _ _ _)))⟩
  | straggle event =>
    refine Or.inl ⟨trivial, Or.inl ?_⟩
    simp only [step]
    split
    · exact yields_ok.2 (h.queue _)
    · exact yields_ok.2 h

lemma Synced.step (heng : eng.PeeksWhatItReceives) (h : r.Synced n) {s : GatewayStep}
    (hr : r.step eng s = .ok r') : r'.Synced n := by
  rcases step_cases heng h s with ⟨-, ⟨m, hm, hs⟩ | ⟨error, -, herr⟩⟩ | ⟨-, flow, herr⟩
  · rw [hr, Except.ok.injEq] at hm
    rwa [hm]
  · simp [hr] at herr
  · simp [hr] at herr

end GatewayRuntime

/-! ### An engine of one socket -/

structure ClientSocket where
  state : TcpState
  received : Bytes
  deriving DecidableEq

namespace ClientSocket

/-- A segment moves the socket by its flags, the fourteenth byte behind the IPv4 header, and
appends its payload. -/
def ingress (s : ClientSocket) (packet : Bytes) : ClientSocket :=
  let flags := packet.getD 33 0
  if flags.getLsbD 2 then { s with state := .closed }
  else match s.state with
    | .listen => if flags.getLsbD 1 then { s with state := .synReceived } else s
    | .synReceived | .established =>
      { state := if flags.getLsbD 0 then .closeWait else .established
        received := s.received ++ packet.drop 40 }
    | _ => s

def tcpEngine : TcpEngine ClientSocket where
  listen _ _ := some ⟨.listen, []⟩
  remove _ _ := ⟨.closed, []⟩
  state s _ := s.state
  peekSlice s _ n := .ok (s.received.take n)
  recv s _ n := .ok (min n s.received.length, { s with received := s.received.drop n })
  sendSlice s _ bytes :=
    if s.state = .established ∨ s.state = .closeWait then .ok (bytes.length, s) else .error ()
  close s _ := { s with state := if s.state = .closeWait then .lastAck else s.state }
  abort s _ := { s with state := .closed }
  enqueueIngress := ingress
  poll s _ := s

lemma peeksWhatItReceives : tcpEngine.PeeksWhatItReceives := by
  intro s flow n bytes h
  obtain rfl : s.received.take n = bytes := by simpa [tcpEngine] using h
  have hmin : min (s.received.take n).length s.received.length = (s.received.take n).length := by
    simp
  refine ⟨by simp, { s with received := s.received.drop (s.received.take n).length }, ?_⟩
  simp only [tcpEngine, hmin]

end ClientSocket

/-- An unfragmented IPv4 segment without options, read as the classifier reads it. -/
def classifySegment (packet : Bytes) : Option TcpSegment :=
  if packet.length < 40 then none
  else
    let byte (i : ℕ) : BitVec 8 := packet.getD i 0
    let address (i : ℕ) (port : ℕ) : SocketAddr :=
      .v4 (byte i ++ byte (i + 1) ++ byte (i + 2) ++ byte (i + 3)) (byte port ++ byte (port + 1))
    some {
      flow := ⟨address 12 20, address 16 22⟩
      syn := (byte 33).getLsbD 1
      ack := (byte 33).getLsbD 4
      rst := (byte 33).getLsbD 2 }

/-- A segment from 100.64.0.2:41000 to 93.184.216.34:443. -/
def clientSegment (length seq ack flags : BitVec 8) (checksums : BitVec 8 × BitVec 8 × BitVec 8)
    (payload : Bytes) : Bytes :=
  [69, 0, 0, length, 0, 0, 0, 0, 64, 6, 224, checksums.1, 100, 64, 0, 2, 93, 184, 216, 34, 160, 40,
    1, 187, 0, 0, 3, seq, 0, 0, 0, ack, 80, flags, 16, 0, checksums.2.1, checksums.2.2, 0, 0] ++
    payload

def clientFlow : FlowId := ⟨.v4 0x64400002 41000, .v4 0x5db8d822 443⟩

def clientSyn : Bytes := clientSegment 40 232 0 2 (179, 95, 250) []

def clientAck : Bytes := clientSegment 40 233 1 16 (179, 95, 234) []

def clientRst : Bytes := clientSegment 40 233 0 4 (179, 95, 247) []

def clientData : Bytes := clientSegment 41 233 1 24 (178, 231, 224) [120]

/-- Nothing happens beside the loop, and every probe reads live. -/
def quietEnv : StepEnv where
  elapsed := 0
  condition _ := .live
  race _ := ⟨[], []⟩
  order := id
  order_perm _ := .refl _
  classify := classifySegment
  display _ := ""

namespace GatewayRuntime

def GatewayStep.packet (packet : Bytes) : GatewayStep :=
  .turn quietEnv packet (.packet (.ok packet.length))

def GatewayStep.report (source : ℕ) (report : BridgeReport) : GatewayStep :=
  .turn quietEnv [] (.bridge (some ⟨source, clientFlow, report⟩))

/-- The client resets its flow and opens the next under the same four-tuple, whose bridge finds
no exit; data of the client is read, and then the event of the first bridge is handled. -/
def endedBridgeRun : List GatewayStep :=
  [.packet clientSyn, .packet clientAck, .bridge clientFlow .openOk, .packet clientRst,
    .packet clientSyn, .packet clientAck,
    .bridge clientFlow (.openErr (.onionUnavailable "no exit")), .packet clientData,
    .report 0 .opened]

def clientGateway : GatewayRuntime ClientSocket := fresh 65536 60000000000 16 ⟨.closed, []⟩

def failure? : Except GatewayError (GatewayRuntime E) → Option GatewayError
  | .ok _ => none
  | .error error => some error

end GatewayRuntime

end Rings.Gateway
