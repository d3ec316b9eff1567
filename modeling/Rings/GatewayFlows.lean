import Rings.Gateway

/-!
What the functions of the gateway do to one flow.

The flow table, the index of endpoints and the bridges each have their small facts. A change that
passes bytes leaves the tables, the bridges and the probes as they are; such changes are listed
once, and what the runtime does between two states of a flow is a sequence of them.
-/

namespace Rings.Gateway

/-! ### The flow table -/

namespace FlowTable

variable {t : FlowTable} {id : FlowId} {s s' : FlowState} {event : FlowEvent}

def kept (s : FlowState) : Option FlowState := if s.isTerminal then none else some s

lemma transition_of_some (hs : t.states.get? id = some s) (hs' : s.transition event = .ok s') :
    t.transition id event = .ok { t with states := t.states.replace id (kept s') } := by
  unfold transition kept
  rw [hs]
  simp only [hs', Except.map]
  split <;> rfl

end FlowTable

/-- A flow that is still tracked can fail. -/
lemma FlowState.transition_fail {s : FlowState} (h : s.isTerminal = false) :
    s.transition .fail = .ok (.failed s.id) := by
  cases s <;> simp [transition, isTerminal, FlowState.id] at h ⊢

namespace GatewayServer

variable {s : GatewayServer} {id : FlowId} {a a' : FlowState} {event : FlowEvent}

def put (s : GatewayServer) (id : FlowId) (o : Option FlowState) : GatewayServer :=
  { s with flows := { s.flows with states := s.flows.states.replace id o } }

@[simp] lemma flowState_put (s : GatewayServer) (id g : FlowId) (o : Option FlowState) :
    (s.put id o).flowState g = if g = id then o else s.flowState g := by
  simp [put, flowState, FlowTable.state]

@[simp] lemma put_put (s : GatewayServer) (id : FlowId) (o o' : Option FlowState) :
    (s.put id o).put id o' = s.put id o' := by
  have hmap : (s.flows.states.replace id o).replace id o' = s.flows.states.replace id o' := by
    refine BTreeMap.ext_get? fun g => ?_
    simp only [BTreeMap.get?_replace]
    split <;> rfl
  simp only [put, hmap]

lemma put_flowState (s : GatewayServer) (id : FlowId) : s.put id (s.flowState id) = s := by
  simp [put, flowState, FlowTable.state]

/-- An active gateway captures a flow it does not track, up to its bound. -/
lemma captureFlow_eq (s : GatewayServer) (hactive : s.state = .active)
    (hnone : s.flowState id = none) :
    s.captureFlow id =
      if s.flows.states.size ≥ s.flows.capacity then
        .error (.flowTable (.capacityExhausted s.flows.capacity))
      else .ok (s.put id (some (.targetBound id))) := by
  have hnone' : s.flows.states.get? id = none := hnone
  unfold captureFlow FlowTable.capture GatewayState.admitsPackets
  by_cases hfull : s.flows.states.size ≥ s.flows.capacity
  · simp [hactive, hnone', hfull]
  · simp only [hactive, hnone', hfull, Option.isSome_none, Bool.false_eq_true, if_false,
      decide_true, Bool.not_true, put, BTreeMap.replace]

lemma transitionFlow_of_some (ha : s.flowState id = some a) (ha' : a.transition event = .ok a') :
    s.transitionFlow id event = .ok (s.put id (FlowTable.kept a')) := by
  unfold transitionFlow
  rw [FlowTable.transition_of_some ha ha']
  rfl

lemma resetFlow_eq (s : GatewayServer) (id : FlowId) (reason : FlowResetReason)
    (h : ∀ a, s.flowState id = some a → a.isTerminal = false) :
    s.resetFlow id reason = .ok { s.put id none with lastFlowReset := some reason } := by
  unfold resetFlow
  rcases ha : s.flowState id with _ | a
  · have hput : s.put id none = s := by
      have := s.flows.states.replace_get? id
      rw [show s.flows.states.get? id = none from ha] at this
      simp [put, this]
    simp only [flowState] at ha
    simp [ha, hput]
    rfl
  · have hfail := transitionFlow_of_some ha (FlowState.transition_fail (h a ha))
    simp only [flowState] at ha
    simp [ha, hfail, FlowTable.kept, FlowState.isTerminal]

end GatewayServer

/-! ### The endpoints -/

/-- What is peeked fits the buffer, and a receive of its length consumes it. -/
def TcpEngine.PeeksWhatItReceives {E : Type} (eng : TcpEngine E) : Prop :=
  ∀ e flow n bytes, eng.peekSlice e flow n = .ok bytes →
    bytes.length ≤ n ∧ ∃ e', eng.recv e flow bytes.length = .ok (bytes.length, e')

inductive TcpEngine.Evolves {E : Type} (eng : TcpEngine E) : E → E → Prop
  | poll (e : E) (elapsed : ℕ) : Evolves eng e (eng.poll e elapsed)
  | ingress (e : E) (packet : Bytes) : Evolves eng e (eng.enqueueIngress e packet)

/-- The engine as a flow was released: it dropped the socket, and may have aborted it first. -/
inductive TcpEngine.Drops {E : Type} (eng : TcpEngine E) (flow : FlowId) : E → E → Prop
  | none (e : E) : Drops eng flow e e
  | remove (e : E) : Drops eng flow e (eng.remove e flow)
  | abort (e : E) (elapsed : ℕ) :
      Drops eng flow e (eng.remove (eng.poll (eng.abort e flow) elapsed) flow)

namespace TcpStack

variable {E : Type} {eng : TcpEngine E} {t : TcpStack E} {flow : FlowId} {elapsed : ℕ}

lemma socket_of_isSome (h : (t.endpoints.get? flow).isSome) : t.socket flow = .ok () := by
  obtain ⟨endpoint, h⟩ := Option.isSome_iff_exists.1 h
  simp [socket, h]

lemma socket_of_none (h : t.endpoints.get? flow = none) :
    t.socket flow = .error (.unknownFlow flow) := by
  simp [socket, h]

lemma endpointState_of_isSome (h : (t.endpoints.get? flow).isSome) :
    t.endpointState eng flow = .ok (.ofTcp (eng.state t.engine flow)) := by
  unfold endpointState
  rw [socket_of_isSome h]
  rfl

lemma endpointState_of_none (h : t.endpoints.get? flow = none) :
    t.endpointState eng flow = .error (.unknownFlow flow) := by
  unfold endpointState
  rw [socket_of_none h]
  rfl

def withEngine (t : TcpStack E) (engine : E) : TcpStack E := { t with engine }

lemma writeApplicationData_cases (eng : TcpEngine E) (h : (t.endpoints.get? flow).isSome)
    (input : Bytes) :
    t.writeApplicationData eng flow input = .error (.sendUnavailable flow) ∨
      ∃ written engine, eng.sendSlice t.engine flow input = .ok (written, engine) ∧
        t.writeApplicationData eng flow input = .ok (written, t.withEngine engine) := by
  unfold writeApplicationData
  rw [socket_of_isSome h]
  rcases hs : eng.sendSlice t.engine flow input with _ | ⟨written, engine⟩
  · exact Or.inl rfl
  · exact Or.inr ⟨written, engine, rfl, rfl⟩

lemma closeApplicationWrite_of_isSome (h : (t.endpoints.get? flow).isSome) :
    t.closeApplicationWrite eng flow = .ok (t.withEngine (eng.close t.engine flow)) := by
  unfold closeApplicationWrite
  rw [socket_of_isSome h]
  rfl

lemma clientFinished_of_isSome (h : (t.endpoints.get? flow).isSome) :
    t.clientFinished eng flow = .ok (eng.state t.engine flow).isFinished := by
  unfold clientFinished
  rw [socket_of_isSome h]
  rfl

lemma abortFlow_of_isSome (eng : TcpEngine E) (elapsed : ℕ)
    (h : (t.endpoints.get? flow).isSome) :
    t.abortFlow eng flow elapsed = .ok { t with
      engine := eng.remove (eng.poll (eng.abort t.engine flow) elapsed) flow
      endpoints := t.endpoints.remove flow } := by
  unfold abortFlow releaseSocket
  rw [socket_of_isSome h]
  have h' : (({ t with engine := eng.abort t.engine flow } : TcpStack E).poll eng
      elapsed).socket flow = .ok () := socket_of_isSome h
  simp only [h', bind, Except.bind]
  rfl

lemma releaseClosedFlow_of_closed (h : (t.endpoints.get? flow).isSome)
    (hclosed : TcpEndpointState.ofTcp (eng.state t.engine flow) = .closed) :
    t.releaseClosedFlow eng flow = .ok (true,
      { t with engine := eng.remove t.engine flow, endpoints := t.endpoints.remove flow }) := by
  unfold releaseClosedFlow releaseSocket
  rw [endpointState_of_isSome h, socket_of_isSome h]
  simp only [bind, Except.bind, hclosed]
  rfl

/-- The stack has the endpoints of another. -/
def SameEnds (t t' : TcpStack E) : Prop :=
  ∀ g, (t'.endpoints.get? g).isSome = (t.endpoints.get? g).isSome

/-- Writing an endpoint that is there adds none. -/
lemma sameEnds_insert (h : (t.endpoints.get? flow).isSome) (endpoint : TcpEndpoint) (engine : E) :
    t.SameEnds { t with engine, endpoints := t.endpoints.insert flow endpoint } := by
  intro g
  simp only [BTreeMap.get?_insert]
  split
  · subst g
    exact h.symm
  · rfl

lemma SameEnds.trans {t' t'' : TcpStack E} (h : t.SameEnds t') (h' : t'.SameEnds t'') :
    t.SameEnds t'' := fun g => (h' g).trans (h g)

/-- An ingested segment reaches the engine, and adds no endpoint. -/
lemma ingestSegment_yields (eng : TcpEngine E) (elapsed : ℕ) {segment : TcpSegment}
    (h : (t.endpoints.get? segment.flow).isSome) (packet : Bytes) :
    Yields (t.ingestSegment eng packet segment elapsed) fun t' =>
      t.SameEnds t' ∧ Relation.ReflTransGen eng.Evolves t.engine t'.engine := by
  obtain ⟨endpoint, hget⟩ := Option.isSome_iff_exists.1 h
  unfold ingestSegment poll
  simp only [hget]
  have hfirst := t.sameEnds_insert h { endpoint with lastClientSegment := elapsed }
    (eng.poll (eng.enqueueIngress t.engine packet) elapsed)
  have hev : Relation.ReflTransGen eng.Evolves t.engine
      (eng.poll (eng.enqueueIngress t.engine packet) elapsed) :=
    .tail (.single (.ingress _ packet)) (.poll _ elapsed)
  split
  · exact yields_ok.2 ⟨hfirst.trans (sameEnds_insert ((hfirst _).trans h) _ _), hev⟩
  · exact yields_ok.2 ⟨hfirst, hev⟩

/-- A sweep of due flows meets no unknown one, and leaves the engine alone. -/
lemma expireDue_yields (eng : TcpEngine E) {due : List FlowId}
    (h : ∀ f ∈ due, (t.endpoints.get? f).isSome) :
    Yields (t.expireDue eng due) fun p => t.SameEnds p.2 ∧ p.2.engine = t.engine := by
  induction due generalizing t with
  | nil => exact yields_ok.2 ⟨fun _ => rfl, rfl⟩
  | cons flow due ih =>
    have hflow := h flow List.mem_cons_self
    have hrest := fun f hf => h f (List.mem_cons_of_mem flow hf)
    obtain ⟨endpoint, hget⟩ := Option.isSome_iff_exists.1 hflow
    unfold expireDue
    rw [endpointState_of_isSome hflow]
    simp only [bind, Except.bind, hget]
    split
    · obtain ⟨p, hp, hends⟩ := ih hrest
      rw [hp]
      exact yields_ok.2 hends
    · have hins := t.sameEnds_insert hflow { endpoint with pendingDeadline := none } t.engine
      exact (ih fun f hf => (hins f).trans (hrest f hf)).mono fun p hp =>
        ⟨hins.trans hp.1, hp.2⟩

/-- A flow new to the stack is refused, or gains an endpoint that listens. -/
lemma admitFlow_cases (eng : TcpEngine E) (elapsed : ℕ) {segment : TcpSegment}
    (h : t.endpoints.get? segment.flow = none) (hopens : segment.opensFlow = true) :
    (∃ reason, t.admitFlow eng segment elapsed = (.rejected reason, t)) ∨
      ∃ t', t.admitFlow eng segment elapsed = (.accepted, t') ∧
        eng.listen t.engine segment.flow = some t'.engine ∧
        ∀ g, (t'.endpoints.get? g).isSome =
          if g = segment.flow then true else (t.endpoints.get? g).isSome := by
  unfold admitFlow
  simp only [h, hopens, Option.isSome_none, Bool.false_eq_true, if_false, Bool.not_true]
  split
  · exact Or.inl ⟨_, rfl⟩
  · split
    · exact Or.inl ⟨_, rfl⟩
    · rename_i engine hlisten
      refine Or.inr ⟨_, rfl, hlisten, fun g => ?_⟩
      simp only [BTreeMap.get?_insert]
      split <;> rfl

lemma mem_dueFlows (h : flow ∈ t.dueFlows elapsed) : (t.endpoints.get? flow).isSome := by
  unfold dueFlows at h
  obtain ⟨⟨f, endpoint⟩, hmem, hf⟩ := List.mem_filterMap.1 h
  obtain ⟨-, -, rfl⟩ := Option.map_eq_some_iff.1 hf
  exact Option.isSome_iff_exists.2 ⟨endpoint, (BTreeMap.mem_entries _).1 hmem⟩

end TcpStack

/-! ### Bridges -/

namespace BridgeHandle

variable (acknowledged : List (ℕ × ℕ)) (b : BridgeHandle)

@[simp] lemma acts_nil : b.acts acknowledged [] = (b, []) := rfl

/-- The steps of a task one by one, each report behind those before it. -/
lemma acts_cons (a : BridgeAction) (as : List BridgeAction) :
    b.acts acknowledged (a :: as) =
      (((b.act acknowledged a).1.acts acknowledged as).1,
        (b.act acknowledged a).2 ++ ((b.act acknowledged a).1.acts acknowledged as).2) := by
  have hfold : ∀ (as : List BridgeAction) (b : BridgeHandle) (reports : List BridgeReport),
      as.foldl (fun (x : BridgeHandle × List BridgeReport) a =>
        ((x.1.act acknowledged a).1, x.2 ++ (x.1.act acknowledged a).2)) (b, reports) =
      ((b.acts acknowledged as).1, reports ++ (b.acts acknowledged as).2) := by
    intro as
    induction as with
    | nil => simp [acts]
    | cons a as ih =>
      intro b reports
      unfold acts
      simp only [List.foldl_cons]
      rw [ih, ih]
      simp
  exact hfold as _ _

@[simp] lemma act_id (a : BridgeAction) : (b.act acknowledged a).1.id = b.id := by
  unfold act
  simp only [BridgeTask.fails]
  split <;> (try split) <;> (try split) <;> rfl

@[simp] lemma acts_id (as : List BridgeAction) : (b.acts acknowledged as).1.id = b.id := by
  induction as generalizing b with
  | nil => rfl
  | cons a as ih => simp [acts_cons, ih]

def namesSource (source : ℕ) : BridgeReport → Bool
  | .data _ consumed => consumed.1 = source
  | .opened | .clientBuffer | .peerClosed | .failed _ => true

lemma act_reports (a : BridgeAction) : ∀ x ∈ (b.act acknowledged a).2, namesSource b.id x := by
  unfold act
  simp only [BridgeTask.fails]
  split <;> (try split) <;> (try split) <;> simp [namesSource]

lemma acts_reports (as : List BridgeAction) :
    ∀ x ∈ (b.acts acknowledged as).2, namesSource b.id x := by
  induction as generalizing b with
  | nil => simp
  | cons a as ih =>
    intro x hx
    rw [acts_cons] at hx
    rcases List.mem_append.1 hx with hx | hx
    · exact b.act_reports acknowledged a x hx
    · simpa using ih _ x hx

lemma trySend_ok {b b' : BridgeHandle} {command : BridgeCommand} (h : b.trySend command = .ok b') :
    b.task.phase ≠ .ended ∧ b.slot = none ∧ b' = { b with slot := some command } := by
  unfold trySend at h
  split at h
  · cases h
  · split at h
    · cases h
    · rename_i hphase hslot
      cases h
      exact ⟨hphase, by simpa using hslot, rfl⟩

lemma trySend_closed {b : BridgeHandle} {command : BridgeCommand} :
    b.trySend command = .closed ↔ b.task.phase = .ended := by
  unfold trySend
  split
  · simp_all
  · split <;> simp_all

end BridgeHandle

/-! ### What the steps that release no flow keep -/

/-- Bytes pass a flow: its bridge, its probe and its marks stay, and no chunk is new. -/
structure RuntimeFlow.Keeps (x y : RuntimeFlow) : Prop where
  bridge : y.bridge.map BridgeHandle.id = x.bridge.map BridgeHandle.id
  probe : y.probe = x.probe
  clientEofSent : y.clientEofSent = x.clientEofSent
  onionEofSeen : y.onionEofSeen = x.onionEofSeen
  pending : ∀ c ∈ y.pendingToClient, ∃ d ∈ x.pendingToClient, c.consumed = d.consumed

lemma RuntimeFlow.Keeps.refl (x : RuntimeFlow) : x.Keeps x :=
  ⟨rfl, rfl, rfl, rfl, fun c hc => ⟨c, hc, rfl⟩⟩

lemma RuntimeFlow.Keeps.trans {x y z : RuntimeFlow} (hxy : x.Keeps y) (hyz : y.Keeps z) :
    x.Keeps z where
  bridge := hyz.bridge.trans hxy.bridge
  probe := hyz.probe.trans hxy.probe
  clientEofSent := hyz.clientEofSent.trans hxy.clientEofSent
  onionEofSeen := hyz.onionEofSeen.trans hxy.onionEofSeen
  pending := by
    intro c hc
    obtain ⟨d, hd, hcd⟩ := hyz.pending c hc
    obtain ⟨d', hd', hdd'⟩ := hxy.pending d hd
    exact ⟨d', hd', hcd.trans hdd'⟩

namespace GatewayRuntime

variable {E : Type} {eng : TcpEngine E} {env : StepEnv} {r r' : GatewayRuntime E} {flow : FlowId}
  {n : ℕ}

/-- The event was queued by the bridge its flow has now. -/
def Owns (r : GatewayRuntime E) (e : BridgeEvent) : Prop :=
  ∃ x b, r.flows.get? e.flow = some x ∧ x.bridge = some b ∧ b.id = e.source

structure Keeps (r r' : GatewayRuntime E) : Prop where
  server : r'.server = r.server
  bridges : r'.bridges = r.bridges
  flows : ∀ g, Option.Rel RuntimeFlow.Keeps (r.flows.get? g) (r'.flows.get? g)
  endpoints : ∀ g, (r'.tcp.endpoints.get? g).isSome = (r.tcp.endpoints.get? g).isSome
  events : ∀ e ∈ r'.bridgeEvents,
    e ∈ r.bridgeEvents ∨ r.Owns e ∧ BridgeHandle.namesSource e.source e.report = true

lemma rel_refl (o : Option RuntimeFlow) : Option.Rel RuntimeFlow.Keeps o o := by
  cases o with
  | none => exact .none
  | some x => exact .some (.refl x)

lemma Keeps.refl (r : GatewayRuntime E) : r.Keeps r :=
  ⟨rfl, rfl, fun _ => rel_refl _, fun _ => rfl, fun _ => Or.inl⟩

lemma Keeps.owns (h : r.Keeps r') {e : BridgeEvent} (he : r'.Owns e) : r.Owns e := by
  obtain ⟨y, b, hy, hb, hid⟩ := he
  have hrel := h.flows e.flow
  rw [hy] at hrel
  cases hx : r.flows.get? e.flow with
  | none =>
    rw [hx] at hrel
    cases hrel
  | some x =>
    rw [hx] at hrel
    cases hrel with
    | some hxy =>
      have hbridge := hxy.bridge
      rw [hb, Option.map_some] at hbridge
      obtain ⟨c, hc, hcid⟩ := Option.map_eq_some_iff.1 hbridge.symm
      exact ⟨x, c, hx, hc, hcid.trans hid⟩

lemma Keeps.trans {r'' : GatewayRuntime E} (h : r.Keeps r') (h' : r'.Keeps r'') :
    r.Keeps r'' where
  server := h'.server.trans h.server
  bridges := h'.bridges.trans h.bridges
  flows := by
    intro g
    have hxy := h.flows g
    have hyz := h'.flows g
    cases hx : r.flows.get? g <;> cases hy : r'.flows.get? g <;> cases hz : r''.flows.get? g <;>
      rw [hx, hy] at hxy <;> rw [hy, hz] at hyz <;> cases hxy <;> cases hyz
    · exact .none
    · rename_i hxy hyz
      exact .some (hxy.trans hyz)
  endpoints := fun g => (h'.endpoints g).trans (h.endpoints g)
  events := by
    intro e he
    rcases h'.events e he with he | he
    · exact h.events e he
    · exact Or.inr ⟨h.owns he.1, he.2⟩

lemma keeps_setFlow {x y : RuntimeFlow} (hx : r.flows.get? flow = some x) (hxy : x.Keeps y) :
    r.Keeps (r.setFlow flow y) where
  server := rfl
  bridges := rfl
  flows := by
    intro g
    simp only [setFlow, BTreeMap.get?_insert]
    split
    · subst g
      rw [hx]
      exact .some hxy
    · exact rel_refl _
  endpoints := fun _ => rfl
  events := fun _ => Or.inl

lemma keeps_withEngine (engine : E) : r.Keeps { r with tcp := r.tcp.withEngine engine } :=
  ⟨rfl, rfl, fun _ => rel_refl _, fun _ => rfl, fun _ => Or.inl⟩

lemma keeps_acknowledge (l : List (ℕ × ℕ)) : r.Keeps { r with acknowledged := l } :=
  ⟨rfl, rfl, fun _ => rel_refl _, fun _ => rfl, fun _ => Or.inl⟩

lemma runBridge_of_some {x : RuntimeFlow} {b : BridgeHandle} (hx : r.flows.get? flow = some x)
    (hb : x.bridge = some b) (as : List BridgeAction) :
    r.runBridge flow as =
      { r.setFlow flow { x with bridge := some (b.acts r.acknowledged as).1 } with
        bridgeEvents := r.bridgeEvents ++
          (b.acts r.acknowledged as).2.map fun report => ⟨b.id, flow, report⟩ } := by
  unfold runBridge
  simp [hx, hb]

lemma keeps_runBridge (r : GatewayRuntime E) (flow : FlowId) (as : List BridgeAction) :
    r.Keeps (r.runBridge flow as) := by
  rcases hx : r.flows.get? flow with _ | x
  · simpa [runBridge, hx] using Keeps.refl r
  · rcases hb : x.bridge with _ | b
    · simpa [runBridge, hx, hb] using Keeps.refl r
    · rw [runBridge_of_some hx hb]
      have hset : r.Keeps (r.setFlow flow { x with
          bridge := some (b.acts r.acknowledged as).1 }) :=
        keeps_setFlow hx ⟨by simp [hb], rfl, rfl, rfl, fun c hc => ⟨c, hc, rfl⟩⟩
      refine ⟨rfl, rfl, hset.flows, fun _ => rfl, ?_⟩
      intro e he
      rcases List.mem_append.1 he with he | he
      · exact Or.inl he
      · obtain ⟨report, hreport, rfl⟩ := List.mem_map.1 he
        exact Or.inr ⟨⟨x, b, hx, hb, rfl⟩, b.acts_reports _ _ _ hreport⟩

lemma Keeps.isSome_flows (h : r.Keeps r') (g : FlowId) :
    (r'.flows.get? g).isSome = (r.flows.get? g).isSome := by
  have hrel := h.flows g
  generalize r.flows.get? g = o at hrel ⊢
  generalize r'.flows.get? g = o' at hrel ⊢
  cases hrel <;> rfl

lemma setBridge_of_some {x : RuntimeFlow} (hx : r.flows.get? flow = some x) (b : BridgeHandle) :
    r.setBridge flow b = r.setFlow flow { x with bridge := some b } := by
  unfold setBridge
  rw [hx]

/-- A flow the runtime holds has its endpoint. -/
def HasEndpoint (r : GatewayRuntime E) (flow : FlowId) : Prop :=
  (r.flows.get? flow).isSome → (r.tcp.endpoints.get? flow).isSome

lemma Keeps.hasEndpoint (h : r.Keeps r') (hr : r.HasEndpoint flow) : r'.HasEndpoint flow := by
  intro hx
  rw [h.endpoints]
  exact hr (by rwa [← h.isSome_flows])

/-! ### Bytes to the client -/

/-- The runtime after `written` bytes of the first chunk of a flow were taken. -/
def afterWrite (r : GatewayRuntime E) (flow : FlowId) (x : RuntimeFlow) (chunk : PendingChunk)
    (rest : List PendingChunk) (written : ℕ) (engine : E) : GatewayRuntime E :=
  let chunk := chunk.advance written
  let r := { r with tcp := r.tcp.withEngine engine }
  if chunk.isEmpty then
    { r.setFlow flow { x with pendingToClient := rest } with
      acknowledged := chunk.consumed :: r.acknowledged }
  else r.setFlow flow { x with pendingToClient := chunk :: rest }

/-- What a flush may do to a chunk: pass an empty one, or hand some of it to the engine. -/
def Wrote (eng : TcpEngine E) (r : GatewayRuntime E) (flow : FlowId) (chunk : PendingChunk)
    (written : ℕ) (engine : E) : Prop :=
  chunk.isEmpty = true ∧ written = 0 ∧ engine = r.tcp.engine ∨
    chunk.isEmpty = false ∧
      eng.sendSlice r.tcp.engine flow chunk.remaining = .ok (written, engine)

lemma keeps_afterWrite {x : RuntimeFlow} {chunk : PendingChunk} {rest : List PendingChunk}
    (hx : r.flows.get? flow = some x) (hp : x.pendingToClient = chunk :: rest) (written : ℕ)
    (engine : E) : r.Keeps (r.afterWrite flow x chunk rest written engine) := by
  have hr' : r.Keeps { r with tcp := r.tcp.withEngine engine } := keeps_withEngine engine
  have htail : x.Keeps { x with pendingToClient := rest } :=
    ⟨rfl, rfl, rfl, rfl, fun c hc => ⟨c, by simp [hp, show c ∈ rest from hc], rfl⟩⟩
  have hpart : x.Keeps { x with pendingToClient := chunk.advance written :: rest } := by
    refine ⟨rfl, rfl, rfl, rfl, fun c hc => ?_⟩
    rcases List.mem_cons.1 hc with rfl | hc
    · exact ⟨chunk, by simp [hp], rfl⟩
    · exact ⟨c, by simp [hp, hc], rfl⟩
  simp only [afterWrite]
  split
  · exact (hr'.trans (keeps_setFlow hx htail)).trans (keeps_acknowledge _)
  · exact hr'.trans (keeps_setFlow hx hpart)

/-- One change that passes bytes: a bridge steps, the engine evolves, a chunk or the end of the
stream goes to the client, a buffer goes out or comes home, or a chunk goes to the bridge. -/
inductive Passes (eng : TcpEngine E) : GatewayRuntime E → GatewayRuntime E → Prop
  | bridge {r : GatewayRuntime E} (flow : FlowId) (as : List BridgeAction) :
      Passes eng r (r.runBridge flow as)
  | tcp {r : GatewayRuntime E} (tcp : TcpStack E) (hends : r.tcp.SameEnds tcp)
      (hev : Relation.ReflTransGen eng.Evolves r.tcp.engine tcp.engine) :
      Passes eng r { r with tcp }
  | write {r : GatewayRuntime E} (flow : FlowId) (x : RuntimeFlow) (chunk : PendingChunk)
      (rest : List PendingChunk) (written : ℕ) (engine : E) (hx : r.flows.get? flow = some x)
      (hp : x.pendingToClient = chunk :: rest) (hw : Wrote eng r flow chunk written engine) :
      Passes eng r (r.afterWrite flow x chunk rest written engine)
  | close {r : GatewayRuntime E} (flow : FlowId) (x : RuntimeFlow)
      (hx : r.flows.get? flow = some x) (heof : x.onionEofSeen = true)
      (hp : x.pendingToClient = []) :
      Passes eng r ({ r with tcp := r.tcp.withEngine (eng.close r.tcp.engine flow) }.setFlow flow
        { x with clientWriteClosed := true })
  | buffer {r : GatewayRuntime E} (flow : FlowId) (x : RuntimeFlow) (o : Option ℕ)
      (hx : r.flows.get? flow = some x) (ho : o = none ∨ o = some r.chunkBytes) :
      Passes eng r (r.setFlow flow { x with clientToOnionBuffer := o })
  | hand {r : GatewayRuntime E} (flow : FlowId) (x : RuntimeFlow) (b b' : BridgeHandle)
      (bytes : Bytes) (engine : E) (hx : r.flows.get? flow = some x) (hb : x.bridge = some b)
      (hsend : b.trySend (.data bytes) = .ok b') (hne : bytes ≠ [])
      (hpeek : ∃ buffer, eng.peekSlice r.tcp.engine flow buffer = .ok bytes)
      (hrecv : eng.recv r.tcp.engine flow bytes.length = .ok (bytes.length, engine)) :
      Passes eng r ({ r with tcp := r.tcp.withEngine engine }.setFlow flow
        { x with bridge := some b' })

abbrev Flowing (eng : TcpEngine E) : GatewayRuntime E → GatewayRuntime E → Prop :=
  Relation.ReflTransGen (Passes eng)

lemma passes_poll (elapsed : ℕ) : Passes eng r { r with tcp := r.tcp.poll eng elapsed } :=
  .tcp _ (fun _ => rfl) (.single (.poll _ elapsed))

lemma Passes.keeps (h : Passes eng r r') : r.Keeps r' := by
  cases h with
  | bridge flow as => exact keeps_runBridge r flow as
  | tcp tcp hends => exact ⟨rfl, rfl, fun _ => rel_refl _, hends, fun _ => Or.inl⟩
  | write flow x chunk rest written engine hx hp => exact keeps_afterWrite hx hp written engine
  | close flow x hx =>
    have hr' : r.Keeps { r with tcp := r.tcp.withEngine (eng.close r.tcp.engine flow) } :=
      keeps_withEngine _
    exact hr'.trans (keeps_setFlow hx ⟨rfl, rfl, rfl, rfl, fun c hc => ⟨c, hc, rfl⟩⟩)
  | buffer flow x o hx =>
    exact keeps_setFlow hx ⟨rfl, rfl, rfl, rfl, fun c hc => ⟨c, hc, rfl⟩⟩
  | hand flow x b b' bytes engine hx hb hsend =>
    obtain ⟨-, -, rfl⟩ := BridgeHandle.trySend_ok hsend
    have hr' : r.Keeps { r with tcp := r.tcp.withEngine engine } := keeps_withEngine _
    refine hr'.trans (keeps_setFlow hx ⟨?_, rfl, rfl, rfl, fun c hc => ⟨c, hc, rfl⟩⟩)
    rw [hb]
    rfl

lemma Flowing.keeps (h : Flowing eng r r') : r.Keeps r' := by
  induction h with
  | refl => exact .refl r
  | tail _ hp ih => exact ih.trans hp.keeps

/-- A flush keeps what each chunk written and each poll keep. -/
lemma flushChunks_yields (eng : TcpEngine E) (env : StepEnv) {P : GatewayRuntime E → Prop} (rounds : ℕ)
    (hend : ∀ r, P r → r.HasEndpoint flow)
    (hwrite : ∀ (r : GatewayRuntime E) x chunk rest written engine, P r →
      r.flows.get? flow = some x → x.pendingToClient = chunk :: rest →
      Wrote eng r flow chunk written engine → P (r.afterWrite flow x chunk rest written engine))
    (hpoll : ∀ r, P r → P { r with tcp := r.tcp.poll eng env.elapsed }) (hr : P r) :
    Yields (r.flushChunks eng env flow rounds) P := by
  induction rounds generalizing r with
  | zero => exact yields_ok.2 hr
  | succ rounds ih =>
    unfold flushChunks
    rcases hx : r.flows.get? flow with _ | x
    · exact yields_ok.2 hr
    rcases hp : x.pendingToClient with _ | ⟨chunk, rest⟩
    · simpa [hp] using hr
    have hsome := hend r hr (by simp [hx])
    rcases hempty : chunk.isEmpty with _ | _
    · rcases r.tcp.writeApplicationData_cases eng hsome chunk.remaining with
        hw | ⟨written, engine, hs, hw⟩
      · simpa [hp, hempty, hw] using hr
      · have hP := hwrite r x chunk rest written engine hr hx hp (Or.inr ⟨hempty, hs⟩)
        simp only [hp, hempty, hw, Bool.false_eq_true, if_false]
        by_cases h0 : written = 0
        · rw [if_pos h0]
          exact yields_ok.2 hP
        · rw [if_neg h0]
          exact ih (hpoll _ hP)
    · have hP := hwrite r x chunk rest 0 r.tcp.engine hr hx hp (Or.inl ⟨hempty, rfl, rfl⟩)
      simp only [hp, hempty, if_true]
      exact yields_ok.2 hP

def chunks (r : GatewayRuntime E) (flow : FlowId) : ℕ :=
  ((r.flows.get? flow).elim 0 fun x => x.pendingToClient.length) + r.acknowledged.length

/-- A chunk taken whole is acknowledged as it leaves. -/
lemma chunks_afterWrite {x : RuntimeFlow} {chunk : PendingChunk} {rest : List PendingChunk}
    (hx : r.flows.get? flow = some x) (hp : x.pendingToClient = chunk :: rest) (written : ℕ)
    (engine : E) : (r.afterWrite flow x chunk rest written engine).chunks flow = r.chunks flow := by
  simp only [chunks, hx, Option.elim_some, hp, afterWrite]
  split
  · simp only [setFlow, BTreeMap.get?_insert, if_true, Option.elim_some, List.length_cons]
    omega
  · simp only [setFlow, BTreeMap.get?_insert, if_true, Option.elim_some, List.length_cons]

/-- A flush passes bytes, and each chunk that leaves is acknowledged. -/
lemma flushPendingToClient_yields (eng : TcpEngine E) (env : StepEnv) (hr : r.HasEndpoint flow) :
    Yields (r.flushPendingToClient eng env flow) fun r' =>
      Flowing eng r r' ∧ r'.chunks flow = r.chunks flow := by
  unfold flushPendingToClient
  rcases hx : r.flows.get? flow with _ | x
  · exact yields_ok.2 ⟨.refl, rfl⟩
  · have hflush := flushChunks_yields eng env
      (P := fun r' => Flowing eng r r' ∧ r'.chunks flow = r.chunks flow)
      (pendingBytes x.pendingToClient + 1) (fun r' h => h.1.keeps.hasEndpoint hr)
      (fun r' y chunk rest written engine h hy hp hw =>
        ⟨h.1.tail (.write flow y chunk rest written engine hy hp hw),
          (chunks_afterWrite hy hp _ _).trans h.2⟩)
      (fun r' h => ⟨h.1.tail (passes_poll _), h.2⟩) ⟨.refl, rfl⟩
    refine hflush.bind fun r' ⟨h, hcount⟩ => ?_
    rcases hy : r'.flows.get? flow with _ | y
    · exact yields_ok.2 ⟨h, hcount⟩
    · simp only
      split
      · rename_i hdue
        obtain ⟨⟨heof, hp⟩, -⟩ : (y.onionEofSeen = true ∧ y.pendingToClient = []) ∧
            y.clientWriteClosed = false := by simpa using hdue
        rw [TcpStack.closeApplicationWrite_of_isSome (h.keeps.hasEndpoint hr (by simp [hy]))]
        refine yields_ok.2 ⟨(h.tail (.close flow y hy heof hp)).tail (passes_poll _), ?_⟩
        rw [← hcount]
        simp [chunks, setFlow, BTreeMap.get?_insert, hy]
      · exact yields_ok.2 ⟨h, hcount⟩

end GatewayRuntime

end Rings.Gateway
