import Rings.GatewayFlows

/-!
The three tables of the gateway agree.

A captured flow stands in the flow table, in the index of endpoints and in the runtime, or in
none of them. A step changes one flow at a time, so agreement is kept flow by flow; the one step
that fails the gateway instead is a reconciliation that meets a bridge already ended.
-/

namespace Rings.Gateway

namespace GatewayRuntime

variable {E : Type} {eng : TcpEngine E} {env : StepEnv} {r r' : GatewayRuntime E} {flow : FlowId}
  {n : ℕ}

/-! ### Agreement -/

/-- One flow stands in the three tables, or in none: a live state under its own name, a bridge
once it left the first state, and half closed once the client's FIN was forwarded. -/
def CoherentAt (flow : FlowId) (s : Option FlowState) (x : Option RuntimeFlow) (endpoint : Bool) :
    Prop :=
  match s, x, endpoint with
  | none, none, false => True
  | some s, some x, true =>
    s.id = flow ∧ s.isTerminal = false ∧ (s ≠ .targetBound flow → x.bridge.isSome) ∧
      (x.clientEofSent = true → s = .halfClosed flow)
  | _, _, _ => False

/-- The tables agree on every flow, and hold no more than `n` of them. -/
structure Synced (r : GatewayRuntime E) (n : ℕ) : Prop where
  active : r.server.state = .active
  capacity : r.server.flows.capacity = n
  bounded : r.server.flows.states.size ≤ n
  coherent : ∀ g, CoherentAt g (r.server.flowState g) (r.flows.get? g)
    (r.tcp.endpoints.get? g).isSome

lemma CoherentAt.keeps {s : Option FlowState} {x y : Option RuntimeFlow} {endpoint : Bool}
    (h : CoherentAt flow s x endpoint) (hxy : Option.Rel RuntimeFlow.Keeps x y) :
    CoherentAt flow s y endpoint := by
  cases hxy with
  | none => exact h
  | some hxy =>
    cases s <;> cases endpoint
    · exact h
    · exact h
    · exact h
    · obtain ⟨hid, hterm, hbridge, heof⟩ := h
      refine ⟨hid, hterm, fun hs => ?_, fun hy => heof (hxy.clientEofSent ▸ hy)⟩
      rw [← Option.isSome_map, hxy.bridge, Option.isSome_map]
      exact hbridge hs

lemma Synced.keeps (h : r.Synced n) (hk : r.Keeps r') : r'.Synced n where
  active := by rw [hk.server, h.active]
  capacity := by rw [hk.server, h.capacity]
  bounded := by rw [hk.server]; exact h.bounded
  coherent := by
    intro g
    rw [hk.server, hk.endpoints]
    exact (h.coherent g).keeps (hk.flows g)

lemma Synced.live (h : r.Synced n) {s : FlowState} (hs : r.server.flowState flow = some s) :
    s.isTerminal = false := by
  have hc := h.coherent flow
  rw [hs] at hc
  unfold CoherentAt at hc
  split at hc <;> simp_all

/-- A flow held by the runtime is live, and has its endpoint. -/
lemma Synced.of_flows (h : r.Synced n) {x : RuntimeFlow} (hx : r.flows.get? flow = some x) :
    ∃ s, r.server.flowState flow = some s ∧ s.id = flow ∧ s.isTerminal = false ∧
      (s ≠ .targetBound flow → x.bridge.isSome) ∧
      (x.clientEofSent = true → s = .halfClosed flow) ∧
      (r.tcp.endpoints.get? flow).isSome := by
  have hc := h.coherent flow
  rw [hx] at hc
  unfold CoherentAt at hc
  split at hc
  · simp_all
  · rename_i s x' hs hx' hep
    cases hx'
    exact ⟨s, hs, hc.1, hc.2.1, hc.2.2.1, hc.2.2.2, hep⟩
  · exact hc.elim

/-- A flow the runtime does not hold is in neither of the other tables. -/
lemma Synced.of_none (h : r.Synced n) (hx : r.flows.get? flow = none) :
    r.server.flowState flow = none ∧ r.tcp.endpoints.get? flow = none := by
  have hc := h.coherent flow
  rw [hx] at hc
  unfold CoherentAt at hc
  split at hc <;> simp_all

lemma Synced.hasEndpoint (h : r.Synced n) (flow : FlowId) : r.HasEndpoint flow := by
  intro hx
  obtain ⟨x, hx⟩ := Option.isSome_iff_exists.1 hx
  obtain ⟨s, -, -, -, -, -, hep⟩ := h.of_flows hx
  exact hep

/-- A step that changes one flow alone keeps agreement if it keeps it there. -/
lemma Synced.update (h : r.Synced n) (o : Option FlowState)
    (hserver : r'.server.state = r.server.state ∧
      r'.server.flows = (r.server.put flow o).flows)
    (hsize : (r.server.put flow o).flows.states.size ≤ n)
    (hflows : ∀ g, g ≠ flow → Option.Rel RuntimeFlow.Keeps (r.flows.get? g) (r'.flows.get? g))
    (hends : ∀ g, g ≠ flow →
      (r'.tcp.endpoints.get? g).isSome = (r.tcp.endpoints.get? g).isSome)
    (hat : CoherentAt flow o (r'.flows.get? flow) (r'.tcp.endpoints.get? flow).isSome) :
    r'.Synced n := by
  obtain ⟨hstate, hput⟩ := hserver
  have hget : ∀ g, r'.server.flowState g = if g = flow then o else r.server.flowState g := by
    intro g
    rw [← GatewayServer.flowState_put]
    simp only [GatewayServer.flowState, hput]
  refine ⟨hstate.trans h.active, by rw [hput]; exact h.capacity, by rw [hput]; exact hsize,
    fun g => ?_⟩
  rw [hget]
  by_cases hg : g = flow
  · subst hg
    simpa using hat
  · rw [if_neg hg, hends g hg]
    exact (h.coherent g).keeps (hflows g hg)

/-! ### Releasing a flow -/

lemma size_put (s : GatewayServer) (flow : FlowId) (o : Option FlowState) :
    (s.put flow o).flows.states.size + (s.flowState flow).toList.length =
      s.flows.states.size + o.toList.length := by
  have h := s.flows.states.countBy_replace (fun _ => true) flow o
  rw [← BTreeMap.size_eq_countBy, ← BTreeMap.size_eq_countBy] at h
  unfold GatewayServer.put GatewayServer.flowState FlowTable.state
  cases hs : s.flows.states.get? flow <;> cases o <;> simpa [hs] using h

structure Released (eng : TcpEngine E) (r r' : GatewayRuntime E) (flow : FlowId) : Prop where
  state : r'.server.state = r.server.state
  server : r'.server.flows = (r.server.put flow none).flows
  flows : r'.flows = r.flows.remove flow
  endpoints : ∀ g, (r'.tcp.endpoints.get? g).isSome =
    if g = flow then false else (r.tcp.endpoints.get? g).isSome
  bridges : r'.bridges = r.bridges
  events : r'.bridgeEvents = r.bridgeEvents
  tcpBufferBytes : r'.tcpBufferBytes = r.tcpBufferBytes
  engine : eng.Drops flow r.tcp.engine r'.tcp.engine

lemma Released.synced (hr : Released eng r r' flow) (h : r.Synced n) : r'.Synced n := by
  refine h.update none ⟨hr.state, hr.server⟩ ?_ (fun g hg => ?_) (fun g hg => ?_) ?_
  · have hsize := size_put r.server flow none
    have hbound := h.bounded
    simp only [Option.toList_none, List.length_nil] at hsize
    omega
  · rw [hr.flows, BTreeMap.get?_remove, if_neg hg]
    exact rel_refl _
  · rw [hr.endpoints, if_neg hg]
  · rw [hr.flows, hr.endpoints, BTreeMap.get?_remove]
    simp [CoherentAt]

/-- Failing a flow releases it, whether or not it was still tracked. -/
lemma failFlow_yields (eng : TcpEngine E) (env : StepEnv) (h : r.Synced n) (flow : FlowId)
    (reason : FlowResetReason) :
    Yields (r.failFlow eng env flow reason) fun r' => Released eng r r' flow := by
  unfold failFlow
  rw [r.server.resetFlow_eq flow reason fun a ha => h.live ha]
  simp only [bind, Except.bind]
  rcases hx : r.flows.get? flow with _ | x
  · obtain ⟨-, hnone⟩ := h.of_none hx
    rw [TcpStack.endpointState_of_none hnone]
    refine yields_ok.2 ⟨rfl, rfl, rfl, fun g => ?_, rfl, rfl, rfl, .none _⟩
    split
    · subst g
      simp [hnone]
    · rfl
  · have hsome := h.hasEndpoint flow (by simp [hx])
    rw [TcpStack.endpointState_of_isSome hsome]
    simp only [TcpStack.abortFlow_of_isSome eng env.elapsed hsome, liftTcp]
    refine yields_ok.2 ⟨rfl, rfl, rfl, fun g => ?_, rfl, rfl, rfl, .abort _ env.elapsed⟩
    simp only [BTreeMap.get?_remove]
    split <;> rfl

lemma finishIfClosed_of_none (hx : r.tcp.endpoints.get? flow = none) :
    r.finishIfClosed eng env flow = .error (.tcp (.unknownFlow flow)) := by
  unfold finishIfClosed
  rw [TcpStack.endpointState_of_none hx]
  rfl

/-- A flow the runtime still holds is released if its endpoint closed, and stays otherwise. -/
lemma finishIfClosed_yields (h : r.Synced n) (hx : (r.flows.get? flow).isSome) :
    Yields (r.finishIfClosed eng env flow) fun r' => r' = r ∨ Released eng r r' flow := by
  obtain ⟨x, hx⟩ := Option.isSome_iff_exists.1 hx
  obtain ⟨s, hs, hid, hterm, hbridge, heof, hep⟩ := h.of_flows hx
  unfold finishIfClosed
  rw [TcpStack.endpointState_of_isSome hep]
  simp only [liftTcp, bind, Except.bind, hx]
  split
  · exact yields_ok.2 (Or.inl rfl)
  rename_i hclosed
  split
  · obtain ⟨endpoint, hendpoint⟩ := Option.isSome_iff_exists.1 hep
    have hclosure : ∃ closure, r.tcp.endpointClosure flow env.elapsed = .ok closure := by
      unfold TcpStack.endpointClosure
      rw [hendpoint]
      simp only
      split
      · exact ⟨_, rfl⟩
      · split <;> exact ⟨_, rfl⟩
    obtain ⟨closure, hclosure⟩ := hclosure
    rw [hclosure]
    exact (failFlow_yields eng env h flow _).mono fun r' hr' => Or.inr hr'
  · rename_i hgraceful
    have hhalf : s = .halfClosed flow := heof (by simp_all)
    subst hhalf
    rw [GatewayServer.transitionFlow_of_some hs rfl,
      TcpStack.releaseClosedFlow_of_closed hep (not_not.1 hclosed)]
    refine yields_ok.2 (Or.inr ⟨rfl, rfl, rfl, fun g => ?_, rfl, rfl, rfl, .remove _⟩)
    simp only [BTreeMap.get?_remove]
    split <;> rfl

/-! ### Starting a bridge -/

def started (r : GatewayRuntime E) (flow : FlowId) (x : RuntimeFlow) : GatewayRuntime E :=
  { r.setFlow flow { x with bridge := some (spawnBridge r.bridges) } with
    server := r.server.put flow (some (.opening flow))
    bridges := r.bridges + 1 }

lemma maybeStartBridge_yields (eng : TcpEngine E) (h : r.Synced n) {x : RuntimeFlow}
    (hx : r.flows.get? flow = some x) :
    Yields (r.maybeStartBridge eng flow) fun r' =>
      r' = r ∨ r.server.flowState flow = some (.targetBound flow) ∧ r' = r.started flow x := by
  obtain ⟨s, hs, -, -, -, -, hep⟩ := h.of_flows hx
  unfold maybeStartBridge runtimeFlow
  rw [TcpStack.endpointState_of_isSome hep]
  simp only [liftTcp, bind, Except.bind, hx]
  split
  · exact yields_ok.2 (Or.inl rfl)
  · rename_i hstart
    obtain ⟨-, hbound⟩ := not_or.1 hstart
    rw [GatewayServer.transitionFlow_of_some (not_not.1 hbound) rfl]
    exact yields_ok.2 (Or.inr ⟨not_not.1 hbound, rfl⟩)

lemma Synced.started (h : r.Synced n) {x : RuntimeFlow} (hx : r.flows.get? flow = some x)
    (hs : r.server.flowState flow = some (.targetBound flow)) : (r.started flow x).Synced n := by
  obtain ⟨s, hs', hid, hterm, hbridge, heof, hep⟩ := h.of_flows hx
  obtain rfl : s = .targetBound flow := by simpa [hs] using hs'.symm
  have hsize := size_put r.server flow (some (.opening flow))
  rw [hs] at hsize
  refine h.update (some (.opening flow)) ⟨rfl, rfl⟩ ?_ (fun g hg => ?_) (fun _ _ => rfl) ?_
  · have hbound := h.bounded
    simp only [Option.toList_some, List.length_singleton] at hsize
    omega
  · simp only [GatewayRuntime.started, setFlow, BTreeMap.get?_insert, if_neg hg]
    exact rel_refl _
  · simp only [GatewayRuntime.started, setFlow, BTreeMap.get?_insert, if_true]
    rw [show (r.tcp.endpoints.get? flow).isSome = true from hep]
    exact ⟨rfl, rfl, fun _ => rfl, fun hx => absurd (heof hx) (by simp)⟩

/-! ### The client's bytes and its FIN -/

def IsOpen (r : GatewayRuntime E) (flow : FlowId) : Prop :=
  r.server.flowState flow = some (.established flow) ∨
    r.server.flowState flow = some (.halfClosed flow)

/-- The runtime after the client's FIN was forwarded, `b` with the close in its slot. -/
def finSent (r : GatewayRuntime E) (flow : FlowId) (x : RuntimeFlow) (b : BridgeHandle) :
    GatewayRuntime E :=
  { r.setFlow flow { x with bridge := some b, clientEofSent := true } with
    server := if r.server.flowState flow = some (.established flow) then
      r.server.put flow (some (.halfClosed flow)) else r.server }

lemma markHalfClosed_eq :
    r.markHalfClosed flow = .ok { r with
      server := if r.server.flowState flow = some (.established flow) then
        r.server.put flow (some (.halfClosed flow)) else r.server } := by
  unfold markHalfClosed
  split
  · rename_i hs
    rw [GatewayServer.transitionFlow_of_some hs rfl]
    rfl
  · rfl

lemma Synced.finSent (h : r.Synced n) {x : RuntimeFlow} (hx : r.flows.get? flow = some x)
    (hopen : r.IsOpen flow) (b : BridgeHandle) : (r.finSent flow x b).Synced n := by
  obtain ⟨s, hs, hid, hterm, hbridge, heof, hep⟩ := h.of_flows hx
  have hstate : (r.finSent flow x b).server.flows =
      (r.server.put flow (some (.halfClosed flow))).flows := by
    unfold GatewayRuntime.finSent
    split
    · rfl
    · rename_i hne
      have hhalf := hopen.resolve_left hne
      have hput := r.server.flows.states.replace_get? flow
      rw [show r.server.flows.states.get? flow = some (.halfClosed flow) from hhalf] at hput
      simp [GatewayServer.put, hput]
  have hsize := size_put r.server flow (some (.halfClosed flow))
  rw [hs] at hsize
  refine h.update (some (.halfClosed flow)) ⟨?_, hstate⟩ ?_ (fun g hg => ?_) (fun _ _ => rfl) ?_
  · unfold GatewayRuntime.finSent
    split <;> rfl
  · have hbound := h.bounded
    simp only [Option.toList_some, List.length_singleton] at hsize
    omega
  · simp only [GatewayRuntime.finSent, setFlow, BTreeMap.get?_insert, if_neg hg]
    exact rel_refl _
  · simp only [GatewayRuntime.finSent, setFlow, BTreeMap.get?_insert, if_true]
    rw [show (r.tcp.endpoints.get? flow).isSome = true from hep]
    exact ⟨rfl, rfl, fun _ => rfl, fun _ => rfl⟩

def offered (eng : TcpEngine E) (r : GatewayRuntime E) (flow : FlowId) (buffer : ℕ) : Bytes :=
  match eng.peekSlice r.tcp.engine flow buffer with
  | .ok bytes => bytes
  | .error _ => []

def Drained (eng : TcpEngine E) (r : GatewayRuntime E) (flow : FlowId) (x : RuntimeFlow) : Prop :=
  ∃ buffer, r.offered eng flow buffer = [] ∧ (buffer = 1 ∨ x.clientToOnionBuffer = some buffer)

/-! ### The changes of the runtime -/

def captured (r : GatewayRuntime E) (flow : FlowId) (tcp : TcpStack E) : GatewayRuntime E :=
  { r with server := r.server.put flow (some (.targetBound flow)), tcp }.setFlow flow
    (.captured r.chunkBytes)

/-- One change of the runtime that no bridge event makes. An `orderly` one forwards the client's
FIN behind all its bytes. -/
inductive Moves (eng : TcpEngine E) (orderly : Prop) : GatewayRuntime E → GatewayRuntime E → Prop
  | pass {r r' : GatewayRuntime E} (h : Passes eng r r') : Moves eng orderly r r'
  | same {r : GatewayRuntime E} (server : GatewayServer) (h : server = r.server) :
      Moves eng orderly r { r with server }
  | start {r : GatewayRuntime E} (flow : FlowId) (x : RuntimeFlow)
      (hx : r.flows.get? flow = some x)
      (hs : r.server.flowState flow = some (.targetBound flow)) :
      Moves eng orderly r (r.started flow x)
  | fin {r : GatewayRuntime E} (flow : FlowId) (x : RuntimeFlow) (b b' : BridgeHandle)
      (hx : r.flows.get? flow = some x) (hb : x.bridge = some b) (hopen : r.IsOpen flow)
      (heof : x.clientEofSent = false) (hsend : b.trySend .closeWrite = .ok b')
      (hdue : (eng.state r.tcp.engine flow).isFinished = true)
      (hlast : orderly → r.Drained eng flow x) : Moves eng orderly r (r.finSent flow x b')
  | release {r r' : GatewayRuntime E} (flow : FlowId) (h : Released eng r r' flow) :
      Moves eng orderly r r'
  | capture {r : GatewayRuntime E} (flow : FlowId) (tcp : TcpStack E)
      (hx : r.flows.get? flow = none)
      (hroom : r.server.flows.states.size < r.server.flows.capacity)
      (hlisten : eng.listen r.tcp.engine flow = some tcp.engine)
      (hends : ∀ g, (tcp.endpoints.get? g).isSome =
        if g = flow then true else (r.tcp.endpoints.get? g).isSome) :
      Moves eng orderly r (r.captured flow tcp)

lemma Synced.moves {orderly : Prop} (h : r.Synced n) (hm : Moves eng orderly r r') :
    r'.Synced n := by
  cases hm with
  | pass hp => exact h.keeps hp.keeps
  | same server hs =>
    subst hs
    exact h
  | start flow x hx hs => exact h.started hx hs
  | fin flow x b b' hx hb hopen => exact h.finSent hx hopen b'
  | release flow hr => exact hr.synced h
  | capture flow tcp hx hroom hlisten hends =>
    obtain ⟨hs, -⟩ := h.of_none hx
    have hsize := size_put r.server flow (some (.targetBound flow))
    rw [hs] at hsize
    refine h.update (some (.targetBound flow)) ⟨rfl, rfl⟩ ?_ (fun g hg => ?_) (fun g hg => ?_) ?_
    · simp only [Option.toList_none, List.length_nil, Option.toList_some,
        List.length_singleton] at hsize
      rw [h.capacity] at hroom
      omega
    · simp only [captured, setFlow, BTreeMap.get?_insert, if_neg hg]
      exact rel_refl _
    · exact (hends g).trans (if_neg hg)
    · have hend : (tcp.endpoints.get? flow).isSome = true := (hends flow).trans (if_pos rfl)
      simp only [captured, setFlow, BTreeMap.get?_insert, if_true, hend]
      exact ⟨rfl, rfl, fun hne => absurd rfl hne, fun hx => by cases hx⟩

abbrev Runs (eng : TcpEngine E) (orderly : Prop) : GatewayRuntime E → GatewayRuntime E → Prop :=
  Relation.ReflTransGen (Moves eng orderly)

lemma Flowing.runs (h : Flowing eng r r') (orderly : Prop) : Runs eng orderly r r' := by
  induction h with
  | refl => exact .refl
  | tail _ hp ih => exact ih.tail (.pass hp)

lemma Moves.mono {p q : Prop} (hm : Moves eng p r r') (hpq : q → p) : Moves eng q r r' := by
  cases hm with
  | pass hp => exact .pass hp
  | same server hs => exact .same server hs
  | start flow x hx hs => exact .start flow x hx hs
  | fin flow x b b' hx hb hopen heof hsend hdue hlast =>
    exact .fin flow x b b' hx hb hopen heof hsend hdue fun hq => hlast (hpq hq)
  | release flow hr => exact .release flow hr
  | capture flow tcp hx hroom hlisten hends => exact .capture flow tcp hx hroom hlisten hends

lemma Runs.mono {p q : Prop} (hr : Runs eng p r r') (hpq : q → p) : Runs eng q r r' := by
  induction hr with
  | refl => exact .refl
  | tail _ hm ih => exact ih.tail (hm.mono hpq)

lemma Synced.runs {orderly : Prop} (h : r.Synced n) (hr : Runs eng orderly r r') :
    r'.Synced n := by
  induction hr with
  | refl => exact h
  | tail _ hm ih => exact ih.moves hm

/-! ### Driving the client's bytes -/

/-- The FIN of the client is to be forwarded, and the bridge ended before it is tried. -/
def FinEnded (eng : TcpEngine E) (env : StepEnv) (r : GatewayRuntime E) (flow : FlowId) : Prop :=
  (eng.state r.tcp.engine flow).isFinished = true ∧
    ∃ x b, r.flows.get? flow = some x ∧ x.clientEofSent = false ∧ x.bridge = some b ∧
      (b.acts r.acknowledged (env.race flow).beforeClose).1.task.phase = .ended

/-- The FIN of the client is to be forwarded, and the bridge takes it. -/
def FinSends (eng : TcpEngine E) (env : StepEnv) (r : GatewayRuntime E) (flow : FlowId) : Prop :=
  (eng.state r.tcp.engine flow).isFinished = true ∧
    ∃ x b b', r.flows.get? flow = some x ∧ x.clientEofSent = false ∧ x.bridge = some b ∧
      (b.acts r.acknowledged (env.race flow).beforeClose).1.trySend .closeWrite = .ok b'

def trying (env : StepEnv) (r : GatewayRuntime E) (flow : FlowId) (x : RuntimeFlow) :
    GatewayRuntime E :=
  (r.setFlow flow { x with clientToOnionBuffer := none }).runBridge flow (env.race flow).beforeData

/-- The runtime after the bridge took a chunk, `c` with the chunk in its slot. -/
def handed (env : StepEnv) (r : GatewayRuntime E) (flow : FlowId) (x : RuntimeFlow) (engine : E)
    (c : BridgeHandle) : GatewayRuntime E :=
  { r.trying env flow x with tcp := r.tcp.withEngine engine }.setBridge flow c

/-- A drive has bytes of the client, or its FIN, for a bridge that ended. -/
def FindsEnded (eng : TcpEngine E) (env : StepEnv) (r : GatewayRuntime E) (flow : FlowId) : Prop :=
  r.IsOpen flow ∧ ∃ x buffer b, r.flows.get? flow = some x ∧
    x.clientToOnionBuffer = some buffer ∧ x.bridge = some b ∧
    let bytes := r.offered eng flow buffer
    let c := (b.acts r.acknowledged (env.race flow).beforeData).1
    if bytes = [] then FinEnded eng env r flow
    else c.task.phase = .ended ∨ ∃ c' engine, c.trySend (.data bytes) = .ok c' ∧
      eng.recv r.tcp.engine flow bytes.length = .ok (bytes.length, engine) ∧
      FinEnded eng env (r.handed env flow x engine c') flow

/-- A drive hands a chunk over, the bridge takes it from its slot at once, and the FIN follows it
while more bytes of the client wait. -/
def Overtakes (eng : TcpEngine E) (env : StepEnv) (r : GatewayRuntime E) (flow : FlowId) : Prop :=
  r.IsOpen flow ∧ ∃ x buffer b c' engine, r.flows.get? flow = some x ∧
    x.clientToOnionBuffer = some buffer ∧ x.bridge = some b ∧
    let bytes := r.offered eng flow buffer
    bytes ≠ [] ∧
    (b.acts r.acknowledged (env.race flow).beforeData).1.trySend (.data bytes) = .ok c' ∧
    eng.recv r.tcp.engine flow bytes.length = .ok (bytes.length, engine) ∧
    FinSends eng env (r.handed env flow x engine c') flow ∧
    (r.handed env flow x engine c').offered eng flow 1 ≠ []

lemma flowBridge_of_some {x : RuntimeFlow} {b : BridgeHandle} (hx : r.flows.get? flow = some x)
    (hb : x.bridge = some b) : r.flowBridge flow = .ok b := by
  unfold flowBridge runtimeFlow
  simp only [hx, bind, Except.bind, hb]
  rfl

lemma get?_runBridge {x : RuntimeFlow} {b : BridgeHandle} (hx : r.flows.get? flow = some x)
    (hb : x.bridge = some b) (as : List BridgeAction) :
    (r.runBridge flow as).flows.get? flow =
      some { x with bridge := some (b.acts r.acknowledged as).1 } := by
  rw [runBridge_of_some hx hb]
  simp [setFlow, BTreeMap.get?_insert]

lemma get?_setBridge {x : RuntimeFlow} (hx : r.flows.get? flow = some x) (b : BridgeHandle) :
    (r.setBridge flow b).flows.get? flow = some { x with bridge := some b } := by
  rw [setBridge_of_some hx]
  simp [setFlow, BTreeMap.get?_insert]

@[simp] lemma tcp_runBridge (r : GatewayRuntime E) (flow : FlowId)
    (as : List BridgeAction) : (r.runBridge flow as).tcp = r.tcp := by
  unfold runBridge
  rcases hx : r.flows.get? flow with _ | x
  · rfl
  · rcases hb : x.bridge with _ | b <;> simp [hb, setFlow]

@[simp] lemma server_runBridge (r : GatewayRuntime E) (flow : FlowId) (as : List BridgeAction) :
    (r.runBridge flow as).server = r.server :=
  (keeps_runBridge r flow as).server

lemma setFlow_self {x : RuntimeFlow} (hx : r.flows.get? flow = some x) : r.setFlow flow x = r := by
  have h := r.flows.replace_get? flow
  rw [hx] at h
  simp only [setFlow]
  rw [show r.flows.insert flow x = r.flows from h]

lemma setFlow_setFlow (x y : RuntimeFlow) : (r.setFlow flow x).setFlow flow y = r.setFlow flow y := by
  simp [setFlow, BTreeMap.insert_insert]

/-- Forwarding the FIN passes it, or releases the flow if the bridge ended before it. -/
lemma driveClientFin_yields {orderly : Prop} (h : r.Synced n) {x : RuntimeFlow} {b : BridgeHandle}
    (hx : r.flows.get? flow = some x) (hb : x.bridge = some b) (hopen : r.IsOpen flow)
    (hlast : orderly → FinSends eng env r flow → r.Drained eng flow x) :
    Yields (r.driveClientFin eng env flow) fun r' =>
      (¬ FinEnded eng env r flow ∧ Runs eng orderly r r' ∧ (r'.flows.get? flow).isSome) ∨
        (FinEnded eng env r flow ∧ ∃ m, Flowing eng r m ∧ Released eng m r' flow) := by
  have hep := h.hasEndpoint flow (by simp [hx])
  unfold driveClientFin
  rw [TcpStack.clientFinished_of_isSome hep]
  simp only [liftTcp, bind, Except.bind, hx]
  split
  · rename_i hnot
    refine yields_ok.2 (Or.inl ⟨?_, .refl, by simp [hx]⟩)
    rintro ⟨hfin, y, c, hy, heof, -⟩
    obtain rfl : x = y := by simpa [hx] using hy
    simp [hfin, heof] at hnot
  rename_i hdue
  obtain ⟨hdue, heof⟩ : (eng.state r.tcp.engine flow).isFinished = true ∧
      x.clientEofSent = false := by simpa using hdue
  have hpass : Passes eng r (r.runBridge flow (env.race flow).beforeClose) := .bridge flow _
  have hx' := get?_runBridge hx hb (env.race flow).beforeClose
  have htcp := tcp_runBridge r flow (env.race flow).beforeClose
  have hserver := server_runBridge r flow (env.race flow).beforeClose
  have hended : FinEnded eng env r flow ↔
      (b.acts r.acknowledged (env.race flow).beforeClose).1.task.phase = .ended := by
    constructor
    · rintro ⟨-, y, c, hy, -, hc, hended⟩
      obtain rfl : x = y := by simpa [hx] using hy
      obtain rfl : b = c := by simpa [hb] using hc
      exact hended
    · exact fun hended => ⟨hdue, x, b, hx, heof, hb, hended⟩
  have hsends : ∀ b', (b.acts r.acknowledged (env.race flow).beforeClose).1.trySend .closeWrite =
      .ok b' → FinSends eng env r flow := fun b' hb' => ⟨hdue, x, b, b', hx, heof, hb, hb'⟩
  generalize r.runBridge flow (env.race flow).beforeClose = m at hpass hx' htcp hserver ⊢
  generalize (b.acts r.acknowledged (env.race flow).beforeClose).1 = c at hx' hended hsends
  rw [flowBridge_of_some hx' rfl, hended]
  simp only
  rcases hsend : c.trySend .closeWrite with b' | _ | _
  · obtain ⟨hphase, -, hb'⟩ := BridgeHandle.trySend_ok hsend
    have hfin : Moves eng orderly m (m.finSent flow { x with bridge := some c } b') := by
      refine .fin flow _ c b' hx' rfl ?_ heof hsend (by rw [htcp]; exact hdue) fun ho => ?_
      · simpa only [IsOpen, hserver] using hopen
      · obtain ⟨buffer, hnil, hbuffer⟩ := hlast ho (hsends b' hsend)
        exact ⟨buffer, by simpa only [offered, htcp] using hnil, hbuffer⟩
    have hset := get?_setBridge hx' b'
    unfold runtimeFlow
    simp only [hset]
    rw [markHalfClosed_eq]
    refine yields_ok.2 (Or.inl ⟨hphase, ?_, by simp [setFlow, BTreeMap.get?_insert]⟩)
    simp only [setBridge_of_some hx', setFlow_setFlow]
    exact .tail (.single (.pass hpass)) hfin
  · refine yields_ok.2 (Or.inl ⟨fun hend => ?_, .single (.pass hpass), by simp [hx']⟩)
    rw [BridgeHandle.trySend_closed.2 hend] at hsend
    cases hsend
  · exact (failFlow_yields eng env (h.keeps hpass.keeps) flow _).mono fun r' hr' =>
      Or.inr ⟨BridgeHandle.trySend_closed.1 hsend, m, .single hpass, hr'⟩

lemma peekClient_of_isSome (h : (r.tcp.endpoints.get? flow).isSome) (buffer : ℕ) :
    r.peekClient eng flow buffer = .ok (r.offered eng flow buffer) := by
  unfold peekClient TcpStack.peekApplicationData offered
  rw [TcpStack.socket_of_isSome h]
  rcases eng.peekSlice r.tcp.engine flow buffer with (_ | _) | bytes <;> rfl

lemma findsEnded_iff {x : RuntimeFlow} {buffer : ℕ} {b : BridgeHandle} (hopen : r.IsOpen flow)
    (hx : r.flows.get? flow = some x) (hbuffer : x.clientToOnionBuffer = some buffer)
    (hb : x.bridge = some b) :
    FindsEnded eng env r flow ↔
      let bytes := r.offered eng flow buffer
      let c := (b.acts r.acknowledged (env.race flow).beforeData).1
      if bytes = [] then FinEnded eng env r flow
      else c.task.phase = .ended ∨ ∃ c' engine, c.trySend (.data bytes) = .ok c' ∧
        eng.recv r.tcp.engine flow bytes.length = .ok (bytes.length, engine) ∧
        FinEnded eng env (r.handed env flow x engine c') flow := by
  constructor
  · rintro ⟨-, y, buffer', c, hy, hbuf, hc, hrest⟩
    obtain rfl : x = y := by simpa [hx] using hy
    obtain rfl : buffer = buffer' := by simpa [hbuffer] using hbuf
    obtain rfl : b = c := by simpa [hb] using hc
    exact hrest
  · exact fun hrest => ⟨hopen, x, buffer, b, hx, hbuffer, hb, hrest⟩

/-- Taking the buffer of a flow out passes, and so do the steps of its bridge. -/
lemma flowing_trying (eng : TcpEngine E) (env : StepEnv) {x : RuntimeFlow}
    (hx : r.flows.get? flow = some x) : Flowing eng r (r.trying env flow x) :=
  .tail (.single (.buffer flow x none hx (Or.inl rfl))) (.bridge flow _)

lemma get?_trying (r : GatewayRuntime E) (env : StepEnv) (flow : FlowId) {x : RuntimeFlow}
    {b : BridgeHandle} (hb : x.bridge = some b) :
    (r.trying env flow x).flows.get? flow = some { x with
      clientToOnionBuffer := none
      bridge := some (b.acts r.acknowledged (env.race flow).beforeData).1 } := by
  have hset : (r.setFlow flow { x with clientToOnionBuffer := none }).flows.get? flow =
      some { x with clientToOnionBuffer := none } := by
    simp [setFlow, BTreeMap.get?_insert]
  exact get?_runBridge hset hb _

lemma commitApplicationRead_of_recv {t : TcpStack E} {length : ℕ} {engine : E}
    (h : (t.endpoints.get? flow).isSome)
    (hrecv : eng.recv t.engine flow length = .ok (length, engine)) :
    t.commitApplicationRead eng flow length = .ok (t.withEngine engine) := by
  unfold TcpStack.commitApplicationRead
  rw [TcpStack.socket_of_isSome h]
  simp only [bind, Except.bind, hrecv, pure, Except.pure, ne_eq, not_true, if_false]
  rfl

/-- Handing a chunk over passes it, or releases the flow if the bridge ended before it or before
the FIN behind it. -/
lemma driveClientBytes_yields (heng : eng.PeeksWhatItReceives) (h : r.Synced n) {x : RuntimeFlow}
    {b : BridgeHandle} {buffer : ℕ} (hx : r.flows.get? flow = some x) (hb : x.bridge = some b)
    (hopen : r.IsOpen flow) (hbuffer : x.clientToOnionBuffer = some buffer)
    (hne : r.offered eng flow buffer ≠ []) :
    Yields ((r.setFlow flow { x with clientToOnionBuffer := none }).driveClientBytes eng env flow
      (r.offered eng flow buffer)) fun r' =>
      (¬ FindsEnded eng env r flow ∧ Runs eng (¬ Overtakes eng env r flow) r r' ∧
          (r'.flows.get? flow).isSome) ∨
        (FindsEnded eng env r flow ∧ ∃ m, Flowing eng r m ∧ Released eng m r' flow) := by
  have hep := h.hasEndpoint flow (by simp [hx])
  have hflow := flowing_trying eng env hx
  have hx' := get?_trying r env flow hb
  have hpeek : eng.peekSlice r.tcp.engine flow buffer = .ok (r.offered eng flow buffer) := by
    unfold offered at hne ⊢
    rcases hp : eng.peekSlice r.tcp.engine flow buffer with _ | bytes
    · simp [hp] at hne
    · rfl
  obtain ⟨engine, hrecv⟩ := (heng _ _ _ _ hpeek).2
  have hovertakes : ∀ c', (b.acts r.acknowledged (env.race flow).beforeData).1.trySend
      (.data (r.offered eng flow buffer)) = .ok c' →
      FinSends eng env (r.handed env flow x engine c') flow →
      (r.handed env flow x engine c').offered eng flow 1 ≠ [] → Overtakes eng env r flow :=
    fun c' hsend hfin hmore =>
      ⟨hopen, x, buffer, b, c', engine, hx, hbuffer, hb, hne, hsend, hrecv, hfin, hmore⟩
  rw [findsEnded_iff hopen hx hbuffer hb]
  simp only [if_neg hne]
  generalize r.offered eng flow buffer = bytes at hpeek hne hrecv hovertakes ⊢
  have htcp : (r.trying env flow x).tcp = r.tcp := by simp [trying, setFlow]
  unfold driveClientBytes
  rw [show (r.setFlow flow { x with clientToOnionBuffer := none }).runBridge flow
    (env.race flow).beforeData = r.trying env flow x from rfl]
  generalize hm : r.trying env flow x = m at hflow hx' htcp ⊢
  generalize (b.acts r.acknowledged (env.race flow).beforeData).1 = c at hx' hovertakes ⊢
  simp only [bind, Except.bind, flowBridge_of_some hx' rfl]
  rcases hsend : c.trySend (.data bytes) with c' | _ | _
  · obtain ⟨hphase, -, -⟩ := BridgeHandle.trySend_ok hsend
    have hepm : (m.tcp.endpoints.get? flow).isSome := by rw [htcp]; exact hep
    simp only [commitApplicationRead_of_recv hepm (by rw [htcp]; exact hrecv), liftTcp]
    have hhanded : { m with tcp := m.tcp.withEngine engine }.setBridge flow c' =
        r.handed env flow x engine c' := by
      rw [handed, hm, htcp]
    have hset : { m with tcp := m.tcp.withEngine engine }.setBridge flow c' =
        { m with tcp := m.tcp.withEngine engine }.setFlow flow { x with
          clientToOnionBuffer := none, bridge := some c' } :=
      setBridge_of_some (r := { m with tcp := m.tcp.withEngine engine }) hx' c'
    have hpass : Passes eng m (r.handed env flow x engine c') := by
      rw [← hhanded, hset]
      exact .hand flow _ c c' bytes engine hx' rfl hsend hne ⟨buffer, by rw [htcp]; exact hpeek⟩
        (by rw [htcp]; exact hrecv)
    have hflow' : Flowing eng r (r.handed env flow x engine c') := hflow.tail hpass
    have hget : (r.handed env flow x engine c').flows.get? flow = some { x with
        clientToOnionBuffer := none, bridge := some c' } := by
      rw [← hhanded, hset]
      simp [setFlow, BTreeMap.get?_insert]
    have hopen' : (r.handed env flow x engine c').IsOpen flow := by
      simpa only [IsOpen, hflow'.keeps.server] using hopen
    have hlast : ¬ Overtakes eng env r flow →
        FinSends eng env (r.handed env flow x engine c') flow →
        (r.handed env flow x engine c').Drained eng flow { x with
          clientToOnionBuffer := none, bridge := some c' } :=
      fun hno hfin => ⟨1, not_not.1 fun hmore => hno (hovertakes c' hsend hfin hmore), Or.inl rfl⟩
    rw [hhanded]
    refine (driveClientFin_yields (h.keeps hflow'.keeps) hget rfl hopen' hlast).mono ?_
    rintro r' (⟨hnot, hruns, hsome⟩ | ⟨hfin, q, hq, hr'⟩)
    · refine Or.inl ⟨?_, (hflow'.runs _).trans hruns, hsome⟩
      rintro (hended | ⟨c'', engine'', hc'', hrecv'', hfin⟩)
      · exact hphase hended
      · obtain rfl : c' = c'' := by simpa using hc''
        obtain rfl : engine = engine'' := by simpa [hrecv] using hrecv''
        exact hnot hfin
    · exact Or.inr ⟨Or.inr ⟨c', engine, rfl, hrecv, hfin⟩, q, hflow'.trans hq, hr'⟩
  · have hset : Passes eng m (m.setFlow flow { x with
        clientToOnionBuffer := some m.chunkBytes, bridge := some c }) :=
      .buffer flow _ (some m.chunkBytes) hx' (Or.inr rfl)
    have hflow' : Flowing eng r _ := hflow.tail hset
    unfold runtimeFlow
    simp only [hx']
    refine yields_ok.2 (Or.inl ⟨?_, hflow'.runs _, ?_⟩)
    · rintro (hended | ⟨c'', engine'', hc'', -⟩)
      · rw [BridgeHandle.trySend_closed.2 hended] at hsend
        cases hsend
      · cases hc''
    · simp [setFlow, BTreeMap.get?_insert]
  · refine (failFlow_yields eng env (h.keeps hflow.keeps) flow _).mono fun r' hr' =>
      Or.inr ⟨?_, m, hflow, hr'⟩
    exact Or.inl (BridgeHandle.trySend_closed.1 hsend)

/-- A drive passes what it finds, or releases the flow if it finds the bridge ended. -/
lemma driveClientToOnion_yields (heng : eng.PeeksWhatItReceives) (env : StepEnv)
    (h : r.Synced n) {x : RuntimeFlow} (hx : r.flows.get? flow = some x) :
    Yields (r.driveClientToOnion eng env flow) fun r' =>
      (¬ FindsEnded eng env r flow ∧ Runs eng (¬ Overtakes eng env r flow) r r' ∧
          (r'.flows.get? flow).isSome) ∨
        (FindsEnded eng env r flow ∧ ∃ m, Flowing eng r m ∧ Released eng m r' flow) := by
  obtain ⟨s, hs, hid, hterm, hbridge, heof, hep⟩ := h.of_flows hx
  unfold driveClientToOnion
  split
  · rename_i hclosed
    exact yields_ok.2 (Or.inl ⟨fun hf => hclosed.elim hf.1.elim, .refl, by simp [hx]⟩)
  rename_i hopen
  have hopen : r.IsOpen flow := by
    unfold IsOpen
    tauto
  obtain ⟨b, hb⟩ : ∃ b, x.bridge = some b := by
    refine Option.isSome_iff_exists.1 (hbridge ?_)
    rintro rfl
    rcases hopen with ho | ho <;> simp [hs] at ho
  rw [hx]
  simp only [bind, Except.bind]
  rcases hbuffer : x.clientToOnionBuffer with _ | buffer
  · refine yields_ok.2 (Or.inl ⟨?_, .refl, by simp [hx]⟩)
    rintro ⟨-, y, buffer, c, hy, hbuf, -⟩
    obtain rfl : x = y := by simpa [hx] using hy
    simp [hbuffer] at hbuf
  have hpeek : (r.setFlow flow { x with clientToOnionBuffer := none }).peekClient eng flow buffer =
      .ok (r.offered eng flow buffer) := peekClient_of_isSome (r := r) hep buffer
  simp only [hpeek]
  by_cases hnil : r.offered eng flow buffer = []
  · have hget : (r.setFlow flow { x with clientToOnionBuffer := none }).runtimeFlow flow =
        .ok { x with clientToOnionBuffer := none } := by
      simp [runtimeFlow, setFlow, BTreeMap.get?_insert]
    have hback : (r.setFlow flow { x with clientToOnionBuffer := none }).setFlow flow
        { x with clientToOnionBuffer := some buffer } = r := by
      rw [setFlow_setFlow, ← hbuffer]
      exact setFlow_self hx
    rw [if_pos hnil, hget, findsEnded_iff hopen hx hbuffer hb]
    simp only [hback, if_pos hnil]
    exact driveClientFin_yields h hx hb hopen fun _ _ => ⟨buffer, hnil, Or.inr hbuffer⟩
  · have hlen : ¬ (r.offered eng flow buffer).length > buffer := by
      unfold offered at hnil ⊢
      rcases hp : eng.peekSlice r.tcp.engine flow buffer with _ | bytes
      · simp [hp] at hnil
      · exact not_lt.2 (heng _ _ _ _ hp).1
    rw [if_neg hnil, if_neg hlen]
    exact driveClientBytes_yields heng h hx hb hopen hbuffer hnil

/-! ### Reconciliation -/

/-- The reconciliation of a flow finds its bridge ended when it comes to the client's bytes. -/
def MeetsEnded (eng : TcpEngine E) (env : StepEnv) (r : GatewayRuntime E) (flow : FlowId) : Prop :=
  ∃ m q, r.maybeStartBridge eng flow = .ok m ∧ m.flushPendingToClient eng env flow = .ok q ∧
    FindsEnded eng env q flow

def MeetsOvertaking (eng : TcpEngine E) (env : StepEnv) (r : GatewayRuntime E) (flow : FlowId) :
    Prop :=
  ∃ m q, r.maybeStartBridge eng flow = .ok m ∧ m.flushPendingToClient eng env flow = .ok q ∧
    Overtakes eng env q flow

lemma reconcileFlow_cases (heng : eng.PeeksWhatItReceives) (env : StepEnv) (h : r.Synced n)
    (flow : FlowId) :
    (¬ MeetsEnded eng env r flow ∧ Yields (r.reconcileFlow eng env flow)
        (Runs eng (¬ MeetsOvertaking eng env r flow) r)) ∨
      (MeetsEnded eng env r flow ∧
        r.reconcileFlow eng env flow = .error (.tcp (.unknownFlow flow))) := by
  unfold reconcileFlow
  rcases hx : r.flows.get? flow with _ | x
  · refine Or.inl ⟨?_, yields_ok.2 .refl⟩
    rintro ⟨m, q, hm, -, -⟩
    obtain ⟨-, hnone⟩ := h.of_none hx
    unfold maybeStartBridge at hm
    rw [TcpStack.endpointState_of_none hnone] at hm
    cases hm
  obtain ⟨m, hm, hstart⟩ := maybeStartBridge_yields eng h hx
  have hrm : (∀ p, Runs eng p r m) ∧ (m.flows.get? flow).isSome := by
    rcases hstart with rfl | ⟨hs, rfl⟩
    · exact ⟨fun _ => .refl, by simp [hx]⟩
    · exact ⟨fun _ => .single (.start flow x hx hs),
        by simp [started, setFlow, BTreeMap.get?_insert]⟩
  have hsm := h.runs (hrm.1 True)
  obtain ⟨q, hq, hflush, -⟩ := flushPendingToClient_yields eng env (hsm.hasEndpoint flow)
  have hrq : ∀ p, Runs eng p r q := fun p => (hrm.1 p).trans (hflush.runs p)
  obtain ⟨y, hy⟩ := Option.isSome_iff_exists.1 ((hflush.keeps.isSome_flows flow).trans hrm.2)
  have hreach : ∀ P : GatewayRuntime E → Prop, (∃ m q, r.maybeStartBridge eng flow = .ok m ∧
      m.flushPendingToClient eng env flow = .ok q ∧ P q) ↔ P q := by
    intro P
    constructor
    · rintro ⟨m', q', hm', hq', hP⟩
      obtain rfl : m = m' := by simpa [hm] using hm'
      obtain rfl : q = q' := by simpa [hq] using hq'
      exact hP
    · exact fun hP => ⟨m, q, hm, hq, hP⟩
  have hmeets : MeetsEnded eng env r flow ↔ FindsEnded eng env q flow := hreach _
  have hovertakes : MeetsOvertaking eng env r flow ↔ Overtakes eng env q flow := hreach _
  obtain ⟨o, ho, hdrive⟩ := driveClientToOnion_yields heng env (hsm.keeps hflush.keeps) hy
  rw [hmeets, hovertakes]
  simp only [bind, Except.bind, Option.isNone_some, Bool.false_eq_true, if_false, hm, hq, ho]
  rcases hdrive with ⟨hnot, hruns, hsome⟩ | ⟨hf, v, hv, hrel⟩
  · have hro := (hrq _).trans hruns
    refine Or.inl ⟨hnot, ?_⟩
    refine (finishIfClosed_yields (h.runs hro) hsome).mono fun r' hr' => ?_
    rcases hr' with rfl | hr'
    · exact hro
    · exact hro.tail (.release flow hr')
  · refine Or.inr ⟨hf, finishIfClosed_of_none ?_⟩
    have hend := hrel.endpoints flow
    rw [if_pos rfl] at hend
    simpa using hend

/-! ### Packets, ticks and bridge events -/

lemma admitFlow_yields (eng : TcpEngine E) (env : StepEnv) (h : r.Synced n)
    {segment : TcpSegment} (hx : r.flows.get? segment.flow = none)
    (hopens : segment.opensFlow = true) (p : Prop) :
    Yields (r.admitFlow eng env segment) fun a =>
      Runs eng p r a.2 ∧ (a.1 = none → (a.2.tcp.endpoints.get? segment.flow).isSome) := by
  obtain ⟨hs, hep⟩ := h.of_none hx
  have hcapture := r.server.captureFlow_eq h.active hs
  unfold admitFlow
  rw [hcapture]
  split_ifs with hfull
  · exact yields_ok.2 ⟨.refl, by simp⟩
  have hroom : r.server.flows.states.size < r.server.flows.capacity := by omega
  rcases r.tcp.admitFlow_cases eng env.elapsed hep hopens with
    ⟨reason, hgranted⟩ | ⟨tcp, hgranted, hlisten, hends⟩
  · have hstate : (r.server.put segment.flow (some (.targetBound segment.flow))).flowState
        segment.flow = some (.targetBound segment.flow) := by simp
    have hundo : (r.server.put segment.flow (some (.targetBound segment.flow))).put segment.flow
        none = r.server := by
      rw [← hs, GatewayServer.put_put]
      exact r.server.put_flowState segment.flow
    have hfail := GatewayServer.transitionFlow_of_some hstate (FlowState.transition_fail rfl)
    simp only [hgranted, bind, Except.bind, hfail]
    exact yields_ok.2 ⟨.single (.same _ hundo), by simp⟩
  · simp only [hgranted]
    refine yields_ok.2 ⟨.single (.capture segment.flow tcp hx hroom hlisten hends), fun _ => ?_⟩
    exact (hends segment.flow).trans (if_pos rfl)

lemma passes_reject (eng : TcpEngine E) (packet : Bytes) (elapsed : ℕ) :
    Passes eng r { r with tcp := r.tcp.rejectSegment eng packet elapsed } :=
  .tcp _ (fun _ => rfl) (.tail (.single (.ingress _ packet)) (.poll _ elapsed))

lemma ingestPacket_yields (eng : TcpEngine E) (env : StepEnv) (h : r.Synced n) (packet : Bytes)
    (p : Prop) : Yields (r.ingestPacket eng env packet) fun a => Runs eng p r a.2 := by
  unfold ingestPacket
  rcases hclass : env.classify packet with _ | segment
  · exact yields_ok.2 .refl
  simp only
  have hingest : ∀ {m : GatewayRuntime E}, Runs eng p r m →
      (m.tcp.endpoints.get? segment.flow).isSome →
      Yields (do
        let tcp ← liftTcp (m.tcp.ingestSegment eng packet segment env.elapsed)
        return (PacketOutcome.consumed segment.flow, { m with tcp })) fun a =>
          Runs eng p r a.2 := by
    intro m hm hsome
    obtain ⟨tcp, htcp, hends, hev⟩ := TcpStack.ingestSegment_yields eng env.elapsed hsome packet
    rw [htcp]
    exact yields_ok.2 (hm.tail (.pass (.tcp tcp hends hev)))
  split
  · rename_i hx
    have hx : r.flows.get? segment.flow = none := by simpa using hx
    split
    · exact yields_ok.2 (.single (.pass (passes_reject eng packet env.elapsed)))
    · rename_i hopens
      refine (admitFlow_yields eng env h hx (by simpa using hopens) p).bind ?_
      rintro ⟨_ | reason, m⟩ ⟨hm, hsome⟩
      · exact hingest hm (hsome rfl)
      · exact yields_ok.2 (hm.tail (.pass (passes_reject eng packet env.elapsed)))
  · rename_i hx
    refine hingest .refl (h.hasEndpoint _ ?_)
    cases hget : r.flows.get? segment.flow <;> simp_all

/-- The flow at the front of a sweep, and each behind it, fails. -/
lemma failExpired_yields (eng : TcpEngine E) (env : StepEnv) (h : r.Synced n) (l : List FlowId)
    (p : Prop) : Yields (r.failExpired eng env l) (Runs eng p r) := by
  induction l generalizing r with
  | nil => exact yields_ok.2 .refl
  | cons flow l ih =>
    refine (failFlow_yields eng env h flow _).bind fun m hm => ?_
    exact (ih (hm.synced h)).mono fun r' hr' => .head (.release flow hm) hr'

lemma tick_yields (eng : TcpEngine E) (env : StepEnv) (h : r.Synced n) (packetBuffer : Bytes)
    (p : Prop) :
    Yields (r.processInput eng env packetBuffer .tick) fun a => Runs eng p r a.2 := by
  unfold processInput
  have hdue : ∀ f ∈ env.order ((r.tcp.poll eng env.elapsed).dueFlows env.elapsed),
      ((r.tcp.poll eng env.elapsed).endpoints.get? f).isSome := fun f hf =>
    TcpStack.mem_dueFlows ((env.order_perm _).mem_iff.1 hf)
  obtain ⟨⟨expired, tcp⟩, hexpire, hends, hengine⟩ := TcpStack.expireDue_yields eng hdue
  simp only [hexpire, liftTcp, bind, Except.bind]
  have hpass : Passes eng r { r with tcp } := by
    refine .tcp tcp hends ?_
    rw [show tcp.engine = eng.poll r.tcp.engine env.elapsed from hengine]
    exact .single (.poll _ _)
  obtain ⟨r', hr', hruns⟩ := failExpired_yields eng env (h.keeps hpass.keeps) expired p
  rw [hr']
  exact yields_ok.2 (.head (.pass hpass) hruns)

/-- The runtime after a flow opened on the probe of the bridge `source`. -/
def opened (r : GatewayRuntime E) (flow : FlowId) (x : RuntimeFlow) (source : ℕ) :
    GatewayRuntime E :=
  { r.setFlow flow { x with probe := some source } with
    server := r.server.put flow (some (.established flow)) }

def eofSeen (r : GatewayRuntime E) (flow : FlowId) (x : RuntimeFlow) : GatewayRuntime E :=
  { r.setFlow flow { x with onionEofSeen := true } with
    server := if r.server.flowState flow = some (.established flow) then
      r.server.put flow (some (.halfClosed flow)) else r.server }

inductive Handles (eng : TcpEngine E) (env : StepEnv) (r : GatewayRuntime E) (e : BridgeEvent) :
    GatewayRuntime E → Prop
  | untracked (hx : r.flows.get? e.flow = none) : Handles eng env r e r
  | notOpening (hreport : e.report = .opened)
      (hs : r.server.flowState e.flow ≠ some (.opening e.flow)) : Handles eng env r e r
  | opened (x : RuntimeFlow) (hreport : e.report = .opened) (hx : r.flows.get? e.flow = some x)
      (hs : r.server.flowState e.flow = some (.opening e.flow)) :
      Handles eng env r e (r.opened e.flow x e.source)
  | data (x : RuntimeFlow) (bytes : Bytes) (consumed : ℕ × ℕ)
      (hreport : e.report = .data bytes consumed) (hx : r.flows.get? e.flow = some x)
      {r' : GatewayRuntime E}
      (hflow : Flowing eng (r.setFlow e.flow { x with
        pendingToClient := x.pendingToClient ++ [.new bytes consumed] }) r')
      (hcount : r'.chunks e.flow = r.chunks e.flow + 1) : Handles eng env r e r'
  | clientBuffer (x : RuntimeFlow) (hreport : e.report = .clientBuffer)
      (hx : r.flows.get? e.flow = some x) :
      Handles eng env r e (r.setFlow e.flow { x with clientToOnionBuffer := some r.chunkBytes })
  | peerClosed (x : RuntimeFlow) (hreport : e.report = .peerClosed)
      (hx : r.flows.get? e.flow = some x)
      (hprobe : x.probe.bind (fun probe => eofReason (env.condition probe)) = none) :
      Handles eng env r e (r.eofSeen e.flow x)
  | peerFailed (x : RuntimeFlow) (hreport : e.report = .peerClosed)
      (hx : r.flows.get? e.flow = some x)
      (hprobe : x.probe.bind (fun probe => eofReason (env.condition probe)) ≠ none)
      {r' : GatewayRuntime E} (hr : Released eng r r' e.flow) : Handles eng env r e r'
  | failed (x : RuntimeFlow) (error : GatewayError) (hreport : e.report = .failed error)
      (hx : r.flows.get? e.flow = some x) {r' : GatewayRuntime E}
      (hr : Released eng r r' e.flow) : Handles eng env r e r'

lemma handleBridgeEvent_yields (eng : TcpEngine E) (env : StepEnv) (h : r.Synced n)
    (e : BridgeEvent) :
    Yields (r.handleBridgeEvent eng env e) fun p => Handles eng env r e p.2 := by
  unfold handleBridgeEvent
  rcases hreport : e.report with _ | ⟨bytes, consumed⟩ | _ | _ | error
  · simp only
    split
    · rename_i hs
      rcases hx : r.flows.get? e.flow with _ | x
      · simp [(h.of_none hx).1] at hs
      · have hstep : (FlowState.opening e.flow).transition .establish =
            .ok (.established e.flow) := rfl
        have hest : (r.setFlow e.flow { x with probe := some e.source }).server.transitionFlow
            e.flow .establish = .ok (r.server.put e.flow (some (.established e.flow))) :=
          GatewayServer.transitionFlow_of_some hs hstep
        simp only [hest, bind, Except.bind]
        exact yields_ok.2 (Handles.opened x hreport hx hs)
    · rename_i hs
      exact yields_ok.2 (Handles.notOpening hreport hs)
  · simp only
    rcases hx : r.flows.get? e.flow with _ | x
    · exact yields_ok.2 (Handles.untracked hx)
    · have hend : (r.setFlow e.flow { x with pendingToClient :=
          x.pendingToClient ++ [.new bytes consumed] }).HasEndpoint e.flow :=
        fun _ => h.hasEndpoint e.flow (by simp [hx])
      obtain ⟨r', hr', hflow, hcount⟩ := flushPendingToClient_yields eng env hend
      simp only [hr', bind, Except.bind]
      refine yields_ok.2 (Handles.data x bytes consumed hreport hx hflow (hcount.trans ?_))
      simp only [chunks, setFlow, BTreeMap.get?_insert, if_true, Option.elim_some, hx,
        List.length_append, List.length_singleton]
      omega
  · simp only
    rcases hx : r.flows.get? e.flow with _ | x
    · exact yields_ok.2 (Handles.untracked hx)
    · exact yields_ok.2 (Handles.clientBuffer x hreport hx)
  · simp only
    rcases hx : r.flows.get? e.flow with _ | x
    · exact yields_ok.2 (Handles.untracked hx)
    · simp only
      rcases hprobe : x.probe.bind fun probe => eofReason (env.condition probe) with _ | reason
      · simp only
        rw [markHalfClosed_eq]
        exact yields_ok.2 (Handles.peerClosed x hreport hx hprobe)
      · obtain ⟨r', hr', hrel⟩ := failFlow_yields eng env h e.flow reason
        simp only [hr', bind, Except.bind]
        have hne : x.probe.bind (fun probe => eofReason (env.condition probe)) ≠ none := by
          simp [hprobe]
        exact yields_ok.2 (Handles.peerFailed x hreport hx hne hrel)
  · simp only
    rcases hx : r.flows.get? e.flow with _ | x
    · exact yields_ok.2 (Handles.untracked hx)
    · obtain ⟨r', hr', hrel⟩ := failFlow_yields eng env h e.flow
        (bridgeReason env.display (r.phase env e.flow) error)
      simp only [hr', bind, Except.bind, Option.isNone_some, Bool.false_eq_true, if_false]
      exact yields_ok.2 (Handles.failed x error hreport hx hrel)

/-- The chunks, the probe and the end of stream of a flow do not matter to agreement. -/
lemma Synced.withFlow (h : r.Synced n) {x y : RuntimeFlow} (hx : r.flows.get? flow = some x)
    (hb : y.bridge = x.bridge) (he : y.clientEofSent = x.clientEofSent) :
    (r.setFlow flow y).Synced n := by
  obtain ⟨s, hs, hid, hterm, hbridge, heof, hep⟩ := h.of_flows hx
  have hput := r.server.put_flowState flow
  refine h.update (r.server.flowState flow) ⟨rfl, by rw [hput]; rfl⟩ (by rw [hput]; exact h.bounded)
    (fun g hg => ?_) (fun _ _ => rfl) ?_
  · simp only [setFlow, BTreeMap.get?_insert, if_neg hg]
    exact rel_refl _
  · simp only [setFlow, BTreeMap.get?_insert, if_true, hs]
    rw [show (r.tcp.endpoints.get? flow).isSome = true from hep]
    exact ⟨hid, hterm, by rwa [hb], by rwa [he]⟩

/-- The flow half closes as its stream ends, unless it did before. -/
lemma Synced.eofSeen (h : r.Synced n) {x : RuntimeFlow} (hx : r.flows.get? flow = some x) :
    (r.eofSeen flow x).Synced n := by
  have hset := h.withFlow hx (y := { x with onionEofSeen := true }) rfl rfl
  unfold GatewayRuntime.eofSeen
  split
  · rename_i hs
    have hget : (r.setFlow flow { x with onionEofSeen := true }).flows.get? flow =
        some { x with onionEofSeen := true } := by simp [setFlow, BTreeMap.get?_insert]
    obtain ⟨s, hs', -, -, hbridge, -, hep⟩ := hset.of_flows hget
    have hs' : r.server.flowState flow = some s := hs'
    obtain rfl : s = .established flow := by simpa [hs] using hs'.symm
    have hsize := size_put r.server flow (some (.halfClosed flow))
    rw [hs] at hsize
    refine hset.update (some (.halfClosed flow)) ⟨rfl, rfl⟩ ?_ (fun _ _ => rel_refl _)
      (fun _ _ => rfl) ?_
    · have hbound := h.bounded
      simp only [Option.toList_some, List.length_singleton, Nat.add_right_cancel_iff] at hsize
      exact hsize.le.trans hbound
    · rw [hget, hep]
      exact ⟨rfl, rfl, fun _ => hbridge (by simp), fun _ => rfl⟩
  · exact hset

lemma Synced.handles (h : r.Synced n) {e : BridgeEvent} (hh : Handles eng env r e r') : r'.Synced n := by
  cases hh with
  | untracked hx => exact h
  | notOpening hreport hs => exact h
  | opened x hreport hx hs =>
    obtain ⟨s, hs', hid, hterm, hbridge, heof, hep⟩ := h.of_flows hx
    obtain rfl : s = .opening e.flow := by simpa [hs] using hs'.symm
    have hsize := size_put r.server e.flow (some (.established e.flow))
    rw [hs] at hsize
    refine h.update (some (.established e.flow)) ⟨rfl, rfl⟩ ?_ (fun g hg => ?_) (fun _ _ => rfl) ?_
    · have hbound := h.bounded
      simp only [Option.toList_some, List.length_singleton] at hsize
      omega
    · simp only [GatewayRuntime.opened, setFlow, BTreeMap.get?_insert, if_neg hg]
      exact rel_refl _
    · simp only [GatewayRuntime.opened, setFlow, BTreeMap.get?_insert, if_true]
      rw [show (r.tcp.endpoints.get? e.flow).isSome = true from hep]
      exact ⟨rfl, rfl, fun _ => hbridge (by simp), fun hx => absurd (heof hx) (by simp)⟩
  | data x bytes consumed hreport hx hflow hcount =>
    refine Synced.keeps ?_ hflow.keeps
    exact h.withFlow hx rfl rfl
  | clientBuffer x hreport hx =>
    exact h.keeps (keeps_setFlow hx ⟨rfl, rfl, rfl, rfl, fun c hc => ⟨c, hc, rfl⟩⟩)
  | peerClosed x hreport hx hprobe => exact h.eofSeen hx
  | peerFailed x hreport hx hprobe hr => exact hr.synced h
  | failed x error hreport hx hr => exact hr.synced h

end GatewayRuntime

end Rings.Gateway
