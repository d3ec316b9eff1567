import Rings.GatewayRuns

/-!
Bridge events after their flow.

An event carries its four-tuple alone, and stays in the channel when its flow is released; the
flow that is captured next under the four-tuple then receives it. An event of an earlier bridge
leaves the runtime alone in some phases of the later flow only. Where every such event meets one
of them, a flow holds the bytes and the probe of its own bridge and opens by its own event.
-/

namespace Rings.Gateway

namespace GatewayRuntime

variable {E : Type} {eng : TcpEngine E} {env : StepEnv} {r r' : GatewayRuntime E} {flow : FlowId}
  {n : ℕ} {e : BridgeEvent}

/-! ### Events that change nothing -/

/-- Whether an event leaves the runtime as it is, whoever queued it. -/
def Harmless (env : StepEnv) (r : GatewayRuntime E) (e : BridgeEvent) : Prop :=
  ∀ x, r.flows.get? e.flow = some x → match e.report with
    | .opened => r.server.flowState e.flow ≠ some (.opening e.flow)
    | .clientBuffer => x.clientToOnionBuffer = some r.chunkBytes
    | .peerClosed => x.probe.bind (fun probe => eofReason (env.condition probe)) = none ∧
        x.onionEofSeen = true ∧ r.server.flowState e.flow ≠ some (.established e.flow)
    | .data .. | .failed _ => False

lemma harmless_iff {x : RuntimeFlow} (hx : r.flows.get? e.flow = some x) :
    Harmless env r e ↔ match e.report with
      | .opened => r.server.flowState e.flow ≠ some (.opening e.flow)
      | .clientBuffer => x.clientToOnionBuffer = some r.chunkBytes
      | .peerClosed => x.probe.bind (fun probe => eofReason (env.condition probe)) = none ∧
          x.onionEofSeen = true ∧ r.server.flowState e.flow ≠ some (.established e.flow)
      | .data .. | .failed _ => False := by
  unfold Harmless
  rw [hx]
  simp only [Option.some.injEq, forall_eq']

lemma Released.ne (hr : Released eng r r' flow) {x : RuntimeFlow} (hx : r.flows.get? flow = some x) :
    r' ≠ r := by
  rintro rfl
  have hflows := congrArg (fun m => m.get? flow) hr.flows
  simp [BTreeMap.get?_remove, hx] at hflows

lemma setFlow_eq_iff {x y : RuntimeFlow} (hx : r.flows.get? flow = some x) :
    r.setFlow flow y = r ↔ y = x := by
  constructor
  · intro h
    have hflows := congrArg (fun m => m.flows.get? flow) h
    simpa [setFlow, BTreeMap.get?_insert, hx] using hflows
  · rintro rfl
    exact setFlow_self hx

lemma eofSeen_eq_iff {x : RuntimeFlow} (hx : r.flows.get? flow = some x) :
    r.eofSeen flow x = r ↔
      x.onionEofSeen = true ∧ r.server.flowState flow ≠ some (.established flow) := by
  constructor
  · intro h
    have hflows := congrArg (fun m => m.flows.get? flow) h
    have hstate := congrArg (fun m => m.server.flowState flow) h
    refine ⟨?_, fun hs => ?_⟩
    · have hxy : { x with onionEofSeen := true } = x := by
        simpa [eofSeen, setFlow, BTreeMap.get?_insert, hx] using hflows
      rw [← hxy]
    · simp [eofSeen, hs] at hstate
  · rintro ⟨heof, hs⟩
    have hxy : { x with onionEofSeen := true } = x := by rw [← heof]
    simp only [eofSeen, if_neg hs, hxy, setFlow_self hx]

/-- An event leaves the runtime as it is in these cases alone. -/
lemma handles_eq_iff (hh : Handles eng env r e r') : r' = r ↔ Harmless env r e := by
  cases hh with
  | untracked hx => exact iff_of_true rfl fun x hx' => by simp [hx] at hx'
  | notOpening hreport hs =>
    refine iff_of_true rfl fun x hx => ?_
    rw [hreport]
    exact hs
  | opened x hreport hx hs =>
    rw [harmless_iff hx, hreport]
    refine iff_of_false (fun h => ?_) (not_not.2 hs)
    have hstate := congrArg (fun m => m.server.flowState e.flow) h
    simp [opened, hs] at hstate
  | data x bytes consumed hreport hx hflow' hcount =>
    rw [harmless_iff hx, hreport]
    refine iff_of_false ?_ id
    rintro rfl
    omega
  | clientBuffer x hreport hx =>
    rw [harmless_iff hx, hreport, setFlow_eq_iff hx]
    constructor
    · intro h
      rw [← h]
    · intro h
      rw [← h]
  | peerClosed x hreport hx hprobe =>
    rw [harmless_iff hx, hreport, eofSeen_eq_iff hx]
    simp [hprobe]
  | peerFailed x hreport hx hprobe hr =>
    rw [harmless_iff hx, hreport]
    exact iff_of_false (hr.ne hx) fun h => hprobe h.1
  | failed x error hreport hx hr =>
    rw [harmless_iff hx, hreport]
    exact iff_of_false (hr.ne hx) id

/-! ### Flows of their own bridges -/

/-- What a flow holds is its own bridge's: the chunks on their way to the client, and the probe,
which is there once the flow opened. -/
structure OwnFlow (s : Option FlowState) (x : RuntimeFlow) (flow : FlowId) : Prop where
  pending : ∀ c ∈ x.pendingToClient, x.bridge.map BridgeHandle.id = some c.consumed.1
  probe : ∀ source, x.probe = some source → x.bridge.map BridgeHandle.id = some source
  opened : s = some (.established flow) ∨ s = some (.halfClosed flow) → x.probe.isSome
  unbridged : s = some (.targetBound flow) → x.bridge = none

/-- Every flow is of its own bridge, and every event in the channel is of a bridge spawned
before. -/
structure Attributed (r : GatewayRuntime E) : Prop where
  flows : ∀ g x, r.flows.get? g = some x → OwnFlow (r.server.flowState g) x g
  bridges : ∀ g x b, r.flows.get? g = some x → x.bridge = some b → b.id < r.bridges
  events : ∀ e ∈ r.bridgeEvents,
    e.source < r.bridges ∧ BridgeHandle.namesSource e.source e.report = true

lemma OwnFlow.keeps {s : Option FlowState} {x y : RuntimeFlow} (h : OwnFlow s x flow)
    (hxy : x.Keeps y) : OwnFlow s y flow where
  pending := by
    intro c hc
    obtain ⟨d, hd, hcd⟩ := hxy.pending c hc
    rw [hxy.bridge, hcd]
    exact h.pending d hd
  probe := by
    intro source hs
    rw [hxy.bridge]
    exact h.probe source (hxy.probe ▸ hs)
  opened := fun hs => by rw [hxy.probe]; exact h.opened hs
  unbridged := fun hs => by
    have hb := hxy.bridge
    rw [h.unbridged hs] at hb
    simpa using hb

/-- A flow that kept its chunks, its probe and its bridge is of its own bridge still. -/
lemma OwnFlow.congr {s s' : Option FlowState} {x y : RuntimeFlow} (h : OwnFlow s x flow)
    (hp : y.pendingToClient = x.pendingToClient) (hprobe : y.probe = x.probe)
    (hb : y.bridge = x.bridge)
    (hopen : s' = some (.established flow) ∨ s' = some (.halfClosed flow) → x.probe.isSome)
    (hbound : s' = some (.targetBound flow) → x.bridge = none) : OwnFlow s' y flow where
  pending := by rw [hp, hb]; exact h.pending
  probe := by rw [hprobe, hb]; exact h.probe
  opened := fun hs => by rw [hprobe]; exact hopen hs
  unbridged := fun hs => by rw [hb]; exact hbound hs

lemma rel_cases {o o' : Option RuntimeFlow} (h : Option.Rel RuntimeFlow.Keeps o o')
    {y : RuntimeFlow} (hy : o' = some y) : ∃ x, o = some x ∧ x.Keeps y := by
  subst hy
  cases h with
  | some hxy => exact ⟨_, rfl, hxy⟩

lemma Attributed.keeps (h : r.Attributed) (hk : r.Keeps r') : r'.Attributed where
  flows := by
    intro g y hy
    obtain ⟨x, hx, hxy⟩ := rel_cases (hk.flows g) hy
    rw [hk.server]
    exact (h.flows g x hx).keeps hxy
  bridges := by
    intro g y b hy hb
    obtain ⟨x, hx, hxy⟩ := rel_cases (hk.flows g) hy
    have hid := hxy.bridge
    rw [hb, Option.map_some] at hid
    obtain ⟨c, hc, hcid⟩ := Option.map_eq_some_iff.1 hid.symm
    rw [hk.bridges, ← hcid]
    exact h.bridges g x c hx hc
  events := by
    intro e he
    rw [hk.bridges]
    rcases hk.events e he with he | ⟨⟨x, b, hx, hb, hid⟩, hnames⟩
    · exact h.events e he
    · exact ⟨hid ▸ h.bridges e.flow x b hx hb, hnames⟩

/-- A change at one flow keeps attribution if the flow is of its own bridge after it. -/
lemma Attributed.update (h : r.Attributed) (flow : FlowId) (hbridges : r.bridges ≤ r'.bridges)
    (hevents : r'.bridgeEvents = r.bridgeEvents)
    (hflows : ∀ g, g ≠ flow → r'.flows.get? g = r.flows.get? g)
    (hstates : ∀ g, g ≠ flow → r'.server.flowState g = r.server.flowState g)
    (hat : ∀ x, r'.flows.get? flow = some x → OwnFlow (r'.server.flowState flow) x flow ∧
      ∀ b, x.bridge = some b → b.id < r'.bridges) : r'.Attributed where
  flows := by
    intro g x hx
    by_cases hg : g = flow
    · subst hg
      exact (hat x hx).1
    · rw [hstates g hg]
      exact h.flows g x (hflows g hg ▸ hx)
  bridges := by
    intro g x b hx hb
    by_cases hg : g = flow
    · subst hg
      exact (hat x hx).2 b hb
    · exact (h.bridges g x b (hflows g hg ▸ hx) hb).trans_le hbridges
  events := by
    intro e he
    rw [hevents] at he
    exact ⟨(h.events e he).1.trans_le hbridges, (h.events e he).2⟩

lemma flowState_halfClose (s : GatewayServer) (flow g : FlowId) :
    (if s.flowState flow = some (.established flow) then
      s.put flow (some (.halfClosed flow)) else s).flowState g =
    if g = flow ∧ s.flowState flow = some (.established flow) then some (.halfClosed flow)
    else s.flowState g := by
  split <;> simp_all

lemma Attributed.released (h : r.Attributed) (hr : Released eng r r' flow) : r'.Attributed := by
  have hstates : ∀ g, r'.server.flowState g = if g = flow then none else r.server.flowState g := by
    intro g
    rw [← GatewayServer.flowState_put]
    simp only [GatewayServer.flowState, hr.server]
  refine h.update flow hr.bridges.ge hr.events (fun g hg => ?_) (fun g hg => ?_) ?_
  · rw [hr.flows, BTreeMap.get?_remove, if_neg hg]
  · rw [hstates, if_neg hg]
  · intro x hx
    simp [hr.flows, BTreeMap.get?_remove] at hx

lemma Attributed.moves {p : Prop} (h : r.Attributed) (hm : Moves eng p r r') : r'.Attributed := by
  cases hm with
  | pass hp => exact h.keeps hp.keeps
  | same server hs =>
    subst hs
    exact h
  | start flow x hx hs =>
    have hown := h.flows flow x hx
    have hnone := hown.unbridged hs
    refine h.update flow (Nat.le_succ _) rfl (fun g hg => ?_) (fun g hg => ?_) fun y hy => ?_
    · simp [started, setFlow, BTreeMap.get?_insert, hg]
    · simp [started, hg]
    · obtain rfl : { x with bridge := some (spawnBridge r.bridges) } = y := by
        simpa [started, setFlow, BTreeMap.get?_insert] using hy
      refine ⟨⟨fun c hc => ?_, fun source hsource => ?_, ?_, ?_⟩, ?_⟩
      · simpa [hnone] using hown.pending c hc
      · simpa [hnone] using hown.probe source hsource
      · simp [started]
      · simp [started]
      · rintro b ⟨⟩
        exact Nat.lt_succ_self _
  | fin flow x b b' hx hb hopen heof hsend =>
    obtain ⟨-, -, hb'⟩ := BridgeHandle.trySend_ok hsend
    have hown := h.flows flow x hx
    have hid : (some b').map BridgeHandle.id = x.bridge.map BridgeHandle.id := by
      rw [hb, hb']
      rfl
    refine h.update flow le_rfl rfl (fun g hg => ?_) (fun g hg => ?_) fun y hy => ?_
    · simp [finSent, setFlow, BTreeMap.get?_insert, hg]
    · simp [finSent, flowState_halfClose, hg]
    · obtain rfl : { x with bridge := some b', clientEofSent := true } = y := by
        simpa [finSent, setFlow, BTreeMap.get?_insert] using hy
      refine ⟨⟨fun c hc => ?_, fun source hs => ?_, fun _ => hown.opened hopen, fun hs => ?_⟩, ?_⟩
      · rw [hid]
        exact hown.pending c hc
      · rw [hid]
        exact hown.probe source hs
      · simp only [finSent, flowState_halfClose, true_and] at hs
        rcases hopen with ho | ho <;> simp [ho] at hs
      · rintro c ⟨⟩
        rw [hb']
        exact h.bridges flow x b hx hb
  | release flow hr => exact h.released hr
  | capture flow tcp hx hroom hlisten hends =>
    refine h.update flow le_rfl rfl (fun g hg => ?_) (fun g hg => ?_) fun y hy => ?_
    · simp [captured, setFlow, BTreeMap.get?_insert, hg]
    · simp [captured, setFlow, hg]
    · obtain rfl : RuntimeFlow.captured r.chunkBytes = y := by
        simpa [captured, setFlow, BTreeMap.get?_insert] using hy
      refine ⟨⟨by simp [RuntimeFlow.captured], by simp [RuntimeFlow.captured], ?_, fun _ => rfl⟩,
        by simp [RuntimeFlow.captured]⟩
      simp [captured, setFlow]

lemma Attributed.runs {p : Prop} (h : r.Attributed) (hr : Runs eng p r r') : r'.Attributed := by
  induction hr with
  | refl => exact h
  | tail _ hm ih => exact ih.moves hm

/-- An event that is not of an earlier bridge is of the flow's own. -/
lemma bridge_of_not_isEarlier (hlt : e.source < r.bridges) (hown : r.isEarlier e = false)
    {x : RuntimeFlow} (hx : r.flows.get? e.flow = some x) :
    x.bridge.map BridgeHandle.id = some e.source := by
  rcases hb : x.bridge with _ | b
  · simp [isEarlier, hlt, hx, hb] at hown
  · simpa [isEarlier, hlt, hx, hb] using hown

lemma Attributed.handles (h : r.Attributed) (hh : Handles eng env r e r')
    (hown : ∀ x, r.flows.get? e.flow = some x → x.bridge.map BridgeHandle.id = some e.source)
    (hnames : BridgeHandle.namesSource e.source e.report = true) : r'.Attributed := by
  cases hh with
  | untracked hx => exact h
  | notOpening hreport hs => exact h
  | opened x hreport hx hs =>
    have hb := hown x hx
    have hflow := h.flows e.flow x hx
    refine h.update e.flow le_rfl rfl (fun g hg => ?_) (fun g hg => ?_) fun y hy => ?_
    · simp [opened, setFlow, BTreeMap.get?_insert, hg]
    · simp [opened, hg]
    · obtain rfl : { x with probe := some e.source } = y := by
        simpa [opened, setFlow, BTreeMap.get?_insert] using hy
      refine ⟨⟨hflow.pending, ?_, fun _ => rfl, ?_⟩, fun b hb => h.bridges e.flow x b hx hb⟩
      · rintro source ⟨⟩
        exact hb
      · simp [opened]
  | data x bytes consumed hreport hx hflow' hcount =>
    have hb := hown x hx
    have hflow := h.flows e.flow x hx
    have hsource : consumed.1 = e.source := by
      rw [hreport] at hnames
      simpa [BridgeHandle.namesSource] using hnames
    refine Attributed.keeps ?_ hflow'.keeps
    refine h.update e.flow le_rfl rfl (fun g hg => ?_) (fun _ _ => rfl) fun y hy => ?_
    · simp [setFlow, BTreeMap.get?_insert, hg]
    · obtain rfl : { x with pendingToClient := x.pendingToClient ++ [.new bytes consumed] } = y := by
        simpa [setFlow, BTreeMap.get?_insert] using hy
      refine ⟨⟨fun c hc => ?_, hflow.probe, hflow.opened, hflow.unbridged⟩,
        fun b hb => h.bridges e.flow x b hx hb⟩
      rcases List.mem_append.1 hc with hc | hc
      · exact hflow.pending c hc
      · obtain rfl : c = .new bytes consumed := by simpa using hc
        exact hb.trans (congrArg some hsource.symm)
  | clientBuffer x hreport hx =>
    exact h.keeps (keeps_setFlow hx ⟨rfl, rfl, rfl, rfl, fun c hc => ⟨c, hc, rfl⟩⟩)
  | peerClosed x hreport hx hprobe =>
    have hflow := h.flows e.flow x hx
    refine h.update e.flow le_rfl rfl (fun g hg => ?_) (fun g hg => ?_) fun y hy => ?_
    · simp [eofSeen, setFlow, BTreeMap.get?_insert, hg]
    · simp [eofSeen, flowState_halfClose, hg]
    · obtain rfl : { x with onionEofSeen := true } = y := by
        simpa [eofSeen, setFlow, BTreeMap.get?_insert] using hy
      refine ⟨hflow.congr rfl rfl rfl (fun hs => hflow.opened ?_) fun hs => hflow.unbridged ?_,
        fun b hb => h.bridges e.flow x b hx hb⟩
      · simp only [eofSeen, flowState_halfClose, true_and] at hs
        split at hs
        · rename_i hest
          exact Or.inl hest
        · exact hs
      · simp only [eofSeen, flowState_halfClose, true_and] at hs
        split at hs
        · cases hs
        · exact hs
  | peerFailed x hreport hx hprobe hr => exact h.released hr
  | failed x error hreport hx hr => exact h.released hr

/-! ### Runs -/

def Undisturbed (eng : TcpEngine E) (r : GatewayRuntime E) : GatewayStep → Prop
  | .turn env _ (.bridge (some e)) => ∀ m, r.takeInput (.bridge (some e)) = some m →
      m.isEarlier e = true → ∀ scope m', m.handleBridgeEvent eng env e = .ok (scope, m') → m' = m
  | _ => True

def HarmlessStep (r : GatewayRuntime E) : GatewayStep → Prop
  | .turn env _ (.bridge (some e)) => ∀ m, r.takeInput (.bridge (some e)) = some m →
      m.isEarlier e = true → Harmless env m e
  | _ => True

/-- Every flow of the run holds the bytes and the probe of its own bridge and opens by its own
event, and no event of an earlier bridge changes anything. -/
def Isolated (eng : TcpEngine E) (r : GatewayRuntime E) : List GatewayStep → Prop
  | [] => r.Attributed
  | s :: steps => r.Attributed ∧ Undisturbed eng r s ∧
      ∀ m, r.step eng s = .ok m → Isolated eng m steps

def HarmlessRun (eng : TcpEngine E) (r : GatewayRuntime E) : List GatewayStep → Prop
  | [] => True
  | s :: steps => HarmlessStep r s ∧ ∀ m, r.step eng s = .ok m → HarmlessRun eng m steps

lemma undisturbed_iff (h : r.Synced n) (s : GatewayStep) :
    Undisturbed eng r s ↔ HarmlessStep r s := by
  rcases s with ⟨env, packetBuffer, _ | (_ | e) | _ | _⟩ | _ | _
  case turn.bridge.some =>
    refine forall_congr' fun m => imp_congr_right fun hm => imp_congr_right fun _ => ?_
    obtain ⟨⟨scope, m'⟩, hm', hh⟩ := handleBridgeEvent_yields eng env (h.takeInput hm) e
    rw [← handles_eq_iff hh, hm']
    constructor
    · exact fun hall => hall scope m' rfl
    · rintro heq _ _ ⟨⟩
      exact heq
  all_goals exact Iff.rfl

/-- The channel may lose events, and gain those of bridges spawned before. -/
lemma Attributed.queue (h : r.Attributed) {l : List BridgeEvent}
    (hl : ∀ e ∈ l, e.source < r.bridges ∧ BridgeHandle.namesSource e.source e.report = true) :
    { r with bridgeEvents := l }.Attributed :=
  ⟨h.flows, h.bridges, hl⟩

lemma Attributed.takeInput (h : r.Attributed) {input : LoopInput}
    (ht : r.takeInput input = some r') : r'.Attributed := by
  unfold GatewayRuntime.takeInput at ht
  split at ht
  · split at ht
    · cases ht
      exact h.queue fun e he => h.events e (List.mem_of_mem_tail he)
    · cases ht
  all_goals
    cases ht
    exact h

/-- The event a turn takes from the channel was queued by a bridge spawned before. -/
lemma Attributed.taken (h : r.Attributed) (ht : r.takeInput (.bridge (some e)) = some r') :
    e.source < r'.bridges ∧ BridgeHandle.namesSource e.source e.report = true := by
  unfold GatewayRuntime.takeInput at ht
  split at ht
  · rename_i hhead heq
    obtain rfl : e = hhead := by simpa using heq
    split at ht
    · rename_i hmem
      cases ht
      exact h.events e (List.mem_of_head? hmem)
    · cases ht
  all_goals simp_all

lemma processInput_attributed (h : r.Synced n) (ha : r.Attributed) {packetBuffer : Bytes}
    {input : LoopInput} {scope : ReconcileScope}
    (hevent : ∀ e, input = .bridge (some e) → e.source < r.bridges ∧
      BridgeHandle.namesSource e.source e.report = true ∧
      (r.isEarlier e = true → Harmless env r e))
    (hr : r.processInput eng env packetBuffer input = .ok (scope, r')) : r'.Attributed := by
  rcases input with (error | length) | (_ | e) | _ | _
  · cases hr
  · unfold processInput at hr
    simp only at hr
    split at hr
    · cases hr
    · obtain ⟨⟨outcome, m⟩, hm, hruns⟩ := ingestPacket_yields eng env h (packetBuffer.take length) True
      rw [hm] at hr
      have hr' : r' = m := by cases outcome <;> cases hr <;> rfl
      rw [hr']
      exact ha.runs hruns
  · cases hr
  · obtain ⟨⟨scope', m⟩, hm, hh⟩ := handleBridgeEvent_yields eng env h e
    have hr' : r.handleBridgeEvent eng env e = .ok (scope, r') := hr
    obtain ⟨-, rfl⟩ : scope' = scope ∧ m = r' := by simpa [hm] using hr'
    obtain ⟨hlt, hnames, hharm⟩ := hevent e rfl
    rcases hearlier : r.isEarlier e with _ | _
    · exact ha.handles hh (fun x hx => bridge_of_not_isEarlier hlt hearlier hx) hnames
    · rw [show m = r from (handles_eq_iff hh).2 (hharm hearlier)]
      exact ha
  · cases hr
    exact ha
  · obtain ⟨⟨scope', m⟩, hm, hruns⟩ := tick_yields eng env h packetBuffer True
    rw [hm] at hr
    cases hr
    exact ha.runs hruns

/-- A step keeps attribution, if what it handles of an earlier bridge is harmless. -/
lemma Attributed.step (heng : eng.PeeksWhatItReceives) (h : r.Synced n) (ha : r.Attributed)
    {s : GatewayStep} (hs : HarmlessStep r s) (hr : r.step eng s = .ok r') : r'.Attributed := by
  rcases s with ⟨env, packetBuffer, input⟩ | ⟨flow, a⟩ | e
  · simp only [GatewayRuntime.step] at hr
    rcases ht : r.takeInput input with _ | m
    · rw [ht] at hr
      cases hr
      exact ha
    rw [ht] at hr
    have hm := h.takeInput ht
    have hevent : ∀ e, input = .bridge (some e) → e.source < m.bridges ∧
        BridgeHandle.namesSource e.source e.report = true ∧
        (m.isEarlier e = true → Harmless env m e) := by
      rintro e rfl
      exact ⟨(ha.taken ht).1, (ha.taken ht).2, hs m ht⟩
    simp only [turn] at hr
    rcases hp : m.processInput eng env packetBuffer input with error | ⟨scope, p⟩
    · rw [hp] at hr
      cases hr
    have hpa := processInput_attributed hm (ha.takeInput ht) hevent hp
    have hps : p.Synced n := by
      rcases processInput_cases eng env hm packetBuffer input with ⟨q, hq, hs⟩ | ⟨error, -, herr⟩
      · obtain rfl : q = (scope, p) := by simpa [hp] using hq.symm
        exact hs
      · simp [hp] at herr
    rw [hp] at hr
    rcases reconcile_cases heng env hps scope with ⟨-, q, hq, hruns⟩ | ⟨-, flow, herr⟩
    · obtain rfl : q = r' := by simpa [bind, Except.bind, hq] using hr
      exact hpa.runs hruns
    · simp [bind, Except.bind, herr] at hr
  · cases hr
    exact ha.keeps (keeps_runBridge _ _ _)
  · simp only [GatewayRuntime.step] at hr
    cases hr
    split
    · rename_i hguard
      obtain ⟨hearlier, hnames⟩ := Bool.and_eq_true_iff.1 hguard
      refine ha.queue fun e' he' => ?_
      rcases List.mem_append.1 he' with he' | he'
      · exact ha.events e' he'
      · obtain rfl : e' = e := by simpa using he'
        refine ⟨?_, hnames⟩
        simp only [isEarlier, Bool.and_eq_true, decide_eq_true_eq] at hearlier
        exact hearlier.1
    · exact ha

lemma Isolated.undisturbed {s : GatewayStep} {rest : List GatewayStep} (steps : List GatewayStep)
    (h : Isolated eng r (steps ++ s :: rest)) (hr : r.run eng steps = .ok r') :
    Undisturbed eng r' s := by
  induction steps generalizing r with
  | nil =>
    cases hr
    exact h.2.1
  | cons t steps ih =>
    unfold run at hr
    rcases hm : r.step eng t with error | m
    · simp [bind, Except.bind, hm] at hr
    · rw [hm] at hr
      exact ih (h.2.2 m hm) hr

def addsChunk (eng : TcpEngine E) (env : StepEnv) (r : GatewayRuntime E) (e : BridgeEvent) : Bool :=
  match r.takeInput (.bridge (some e)) with
  | none => false
  | some m => m.isEarlier e && match m.handleBridgeEvent eng env e with
    | .error _ => false
    | .ok (_, m') => decide (m'.chunks e.flow ≠ m.chunks e.flow)

lemma not_undisturbed (h : addsChunk eng env r e = true) (packetBuffer : Bytes) :
    ¬ Undisturbed eng r (.turn env packetBuffer (.bridge (some e))) := by
  unfold addsChunk at h
  rcases ht : r.takeInput (.bridge (some e)) with _ | m
  · simp [ht] at h
  rcases hh : m.handleBridgeEvent eng env e with error | ⟨scope, m'⟩
  · simp [ht, hh] at h
  · simp only [ht, hh, Bool.and_eq_true, decide_eq_true_eq] at h
    intro hu
    exact h.2 (congrArg (fun m => m.chunks e.flow) (hu m ht h.1 scope m' hh))

/-- The bridge of a flow reads two bytes; the client resets the flow and opens the next under the
same four-tuple. -/
def reusedTuple : List GatewayStep :=
  [.packet clientSyn, .packet clientAck, .bridge clientFlow .openOk, .report 0 .opened,
    .bridge clientFlow (.read [1, 2]), .packet clientRst, .packet clientSyn]

def lateData : GatewayStep := .report 0 (.data [1, 2] (0, 0))

end GatewayRuntime

end Rings.Gateway
