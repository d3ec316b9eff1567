import Rings.RelayNode
import Rings.RelayStream
import Mathlib.Data.Finset.Card
import Mathlib.Tactic

/-!
What a turn of the relay does to its node.

An event has at most one effect, and that effect feeds back at most one command, which forgets a
session. So a turn leaves the session set and the engine's table in one of a few relations at the
one key its event names.
-/

namespace Rings.Transport

variable {T : Type*}

/-! ### The reducer's session set and its quota -/

namespace RelayState

variable {s s' : RelayState T} {key : SessionKey}

def held (s : RelayState T) (peer : Did) : ℕ := (s.sessions.filter (·.peer = peer)).card

/-- The quota is the session set's cardinality, in total and for each peer, within both bounds. -/
structure Counted (s : RelayState T) : Prop where
  perPeer : s.sessionQuota.Counts s.held
  total : s.sessionQuota.total = s.sessions.card
  maxTotal : s.sessionQuota.maxTotal = maxRelaySessions
  maxPerPeer : s.sessionQuota.maxPerPeer = maxRelaySessionsPerPeer
  bound : s.sessions.card ≤ maxRelaySessions
  peerBound : ∀ peer, s.held peer ≤ maxRelaySessionsPerPeer

lemma counted_new : (new : RelayState T).Counted where
  perPeer := (PeerQuota.counts_new _ _).congr fun _ => rfl
  total := rfl
  maxTotal := rfl
  maxPerPeer := rfl
  bound := Nat.zero_le _
  peerBound _ := Nat.zero_le _

lemma Counted.congr (h : s.Counted) (hsessions : s'.sessions = s.sessions)
    (hquota : s'.sessionQuota = s.sessionQuota) : s'.Counted := by
  have hheld : ∀ peer, s'.held peer = s.held peer := by
    intro peer
    unfold held
    rw [hsessions]
  constructor
  · rw [hquota]
    exact h.perPeer.congr hheld
  · rw [hquota, hsessions, h.total]
  · rw [hquota, h.maxTotal]
  · rw [hquota, h.maxPerPeer]
  · rw [hsessions]
    exact h.bound
  · intro peer
    rw [hheld]
    exact h.peerBound peer

lemma held_insert (hkey : key ∉ s.sessions) (hs : s'.sessions = insert key s.sessions)
    (peer : Did) : s'.held peer = if peer = key.peer then s.held peer + 1 else s.held peer := by
  unfold held
  rw [hs, Finset.filter_insert]
  by_cases hpeer : key.peer = peer
  · rw [if_pos hpeer, if_pos hpeer.symm, Finset.card_insert_of_notMem]
    simp [hkey]
  · rw [if_neg hpeer, if_neg (Ne.symm hpeer)]

lemma held_erase (hkey : key ∈ s.sessions) (hs : s'.sessions = s.sessions.erase key)
    (peer : Did) : s'.held peer = if peer = key.peer then s.held peer - 1 else s.held peer := by
  unfold held
  rw [hs, Finset.filter_erase]
  by_cases hpeer : key.peer = peer
  · rw [if_pos hpeer.symm, Finset.card_erase_of_mem]
    simp [hkey, hpeer]
  · rw [if_neg (Ne.symm hpeer), Finset.erase_eq_of_notMem]
    simp [hpeer]

lemma insertSession_cases (h : s.Counted) (key : SessionKey) :
    s.insertSession key = (s, false) ∨
      ∃ s', s.insertSession key = (s', true) ∧ key ∉ s.sessions ∧
        s'.sessions = insert key s.sessions ∧ s'.Counted ∧ s'.nextSession = s.nextSession := by
  unfold insertSession
  by_cases hkey : key ∈ s.sessions
  · rw [if_pos hkey]
    exact Or.inl rfl
  rw [if_neg hkey]
  cases hq : s.sessionQuota.reserve key.peer with
  | error e => exact Or.inl rfl
  | ok quota =>
    right
    refine ⟨_, rfl, hkey, rfl, ?_, rfl⟩
    obtain ⟨htotal, hpeer, hquota⟩ := PeerQuota.reserve_cases hq
    have hheld := @held_insert T s { s with
      sessionQuota := quota
      sessions := insert key s.sessions } key hkey rfl
    have hcard := Finset.card_insert_of_notMem hkey
    have htotalEq := h.total
    have hmax := h.maxTotal
    have hmaxPeer := h.maxPerPeer
    have hpeerTotal := h.perPeer.peerTotal key.peer
    constructor
    · exact h.perPeer.reserve hq hheld
    · simp only [hquota]
      omega
    · simp only [hquota]
      exact hmax
    · simp only [hquota]
      exact hmaxPeer
    · simp only
      omega
    · intro peer
      rw [hheld]
      split
      · rename_i heq
        subst heq
        omega
      · exact h.peerBound peer

lemma removeSession_spec (h : s.Counted) (key : SessionKey) :
    ∃ s', s.removeSession key = (s', decide (key ∈ s.sessions)) ∧
      s'.sessions = s.sessions.erase key ∧ s'.Counted ∧ s'.nextSession = s.nextSession := by
  unfold removeSession
  by_cases hkey : key ∈ s.sessions
  · rw [if_neg (not_not.mpr hkey), decide_eq_true hkey]
    have hheldPos : 0 < s.held key.peer := Finset.card_pos.mpr ⟨key, by simp [hkey]⟩
    have hcardPos : 0 < s.sessions.card := Finset.card_pos.mpr ⟨key, hkey⟩
    obtain ⟨quota, hrelease, htotal, hmax, hmaxPeer, hcounts⟩ :=
      h.perPeer.release hheldPos (by rw [h.total]; exact hcardPos)
    rw [hrelease]
    refine ⟨_, rfl, rfl, ?_, rfl⟩
    have hheld := @held_erase T s { s with
      sessionQuota := quota
      sessions := s.sessions.erase key } key hkey rfl
    have hcard := Finset.card_erase_of_mem hkey
    have hbound := h.bound
    constructor
    · exact hcounts _ hheld
    · simp only
      rw [htotal, h.total, hcard]
    · exact hmax.trans h.maxTotal
    · exact hmaxPeer.trans h.maxPerPeer
    · simp only
      omega
    · intro peer
      have := h.peerBound peer
      rw [hheld]
      split <;> omega
  · rw [if_pos hkey, decide_eq_false hkey]
    exact ⟨s, rfl, (Finset.erase_eq_of_notMem hkey).symm, h, rfl⟩

end RelayState

/-! ### The turn of one event -/

/-- The stages of a generation's tasks as a registration starts them, from the stages `before`. -/
inductive Started (before : TaskRole → TaskStage) : Initiator → (TaskRole → TaskStage) → Prop
  | dials : Started before .remote (Function.update before .socket .dialing)
  | opens (service : String) :
    Started before .local_ (Function.update before .socket (.opening service false))
  | relays (service : String) :
    Started before .local_
      (Function.update (Function.update before .socket .relaying) .opener (.opening service false))

structure RelayState.Reduced (s s' : RelayState T) : Prop where
  counted : s'.Counted
  nextSession : s.nextSession ≤ s'.nextSession

/-- What a turn does to a node, at the key `k` of an event that may carry an item or mint a
session. -/
inductive Turned (n : RelayNode T) (k : SessionKey) (item? : Option Outbound) (mints : Prop) :
    RelayNode T → List Output → Prop
  | idle {s : RelayState T} {outs : List Output} (hr : n.state.Reduced s)
    (hs : s.sessions = n.state.sessions)
    (houts : outs = [] ∨ outs = [.frame none k.peer (.close k.session false)]) :
    Turned n k item? mints { n with state := s } outs
  | opened {s : RelayState T} {stages : TaskRole → TaskStage} {outs : List Output}
    (hr : n.state.Reduced s) (hk : k ∉ n.state.sessions)
    (hs : s.sessions = insert k n.state.sessions) (hvacant : n.map k = none)
    (hstages : Started (n.tasks n.generations) k.initiator stages)
    (hside : (mints ∧ k.initiator = .local_ ∧ k.session = n.state.nextSession ∧
        s.nextSession = n.state.nextSession + 1 ∧ outs = []) ∨
      (k.initiator = .remote ∧ outs = [.connected n.generations])) :
    Turned n k item? mints
      { n with
        state := s
        map := Function.update n.map k (some n.generations)
        generations := n.generations + 1
        registered := Function.update n.registered n.generations k
        channels := Function.update n.channels n.generations ⟨[], false⟩
        tasks := Function.update n.tasks n.generations stages } outs
  | present {s : RelayState T} {g : ℕ} (hr : n.state.Reduced s) (hk : k ∉ n.state.sessions)
    (hs : s.sessions = insert k n.state.sessions) (hmap : n.map k = some g) :
    Turned n k item? mints { n with state := s, generations := n.generations + 1 } []
  | forgotten {s : RelayState T} (hr : n.state.Reduced s)
    (hs : s.sessions = n.state.sessions.erase k) (hmap : n.map k = none) :
    Turned n k item? mints { n with state := s } []
  | queued {g : ℕ} {item : Outbound} (hc : n.state.Counted) (hk : k ∈ n.state.sessions)
    (hmap : n.map k = some g) (hitem : item? = some item) :
    Turned n k item? mints
      { n with
        channels := Function.update n.channels g
          { n.channels g with queue := (n.channels g).queue ++ [item] } }
      [.queued g item]
  | aborted {s : RelayState T} {g : ℕ} {outs : List Output} (hr : n.state.Reduced s)
    (hk : k ∈ n.state.sessions) (hs : s.sessions = n.state.sessions.erase k)
    (hmap : n.map k = some g)
    (houts : outs = [] ∨ outs = [.frame (some g) k.peer (.close k.session (openedByUs k))]) :
    Turned n k item? mints { n.remove k with state := s } outs
  | closed {s : RelayState T} {g : ℕ} (hr : n.state.Reduced s) (hk : k ∈ n.state.sessions)
    (hs : s.sessions = n.state.sessions.erase k) (hmap : n.map k = some g) :
    Turned n k item? mints { n.remove k with state := s } [.cancelled g]

namespace RelayNode

variable {n : RelayNode T} {a : Answers} {ev : RelayEvent T} {s : RelayState T} {k : SessionKey}

lemma turn_cons (budget : ℕ) (event : RelayEvent T) (source : Option ℕ)
    (events : List (RelayEvent T × Option ℕ)) (n : RelayNode T) :
    turn a (budget + 1) ((event, source) :: events) n =
      let next := relayStep n.kind n.namespace_ n.state event
      let ran := runEffects a source next.2 { n with state := next.1 }
      if ran.failed then (ran.node, ran.outputs)
      else
        let feedback := ran.feedback.map fun c => (RelayEvent.command c.1, c.2)
        let rest := turn a budget (events ++ feedback) ran.node
        (rest.1, ran.outputs ++ rest.2) := rfl

lemma turn_nil (budget : ℕ) (n : RelayNode T) : turn a budget [] n = (n, []) := by
  cases budget <;> rfl

lemma runEffects_one (source : Option ℕ) (effect : RelayEffect T) (n : RelayNode T) :
    runEffects a source [effect] n = n.runEffect a source effect := by
  simp only [runEffects]
  split
  · rfl
  · rename_i hfailed
    simp only [List.append_nil]
    rw [Bool.not_eq_true] at hfailed
    rw [← hfailed]

lemma runTurn_pure (hstep : relayStep n.kind n.namespace_ n.state ev = (s, [])) :
    n.runTurn a ev = ({ n with state := s }, []) := by
  unfold runTurn maxFixpointSteps
  rw [turn_cons]
  simp only [hstep, runEffects, List.map_nil, List.append_nil, turn_nil, Bool.false_eq_true,
    if_false]

lemma runTurn_quiet {effect : RelayEffect T} {n' : RelayNode T} {outs : List Output}
    {failed : Bool} (hstep : relayStep n.kind n.namespace_ n.state ev = (s, [effect]))
    (heffect : runEffect { n with state := s } a none effect = ⟨n', [], outs, failed⟩) :
    n.runTurn a ev = (n', outs) := by
  unfold runTurn maxFixpointSteps
  rw [turn_cons]
  simp only [hstep, runEffects_one, heffect, List.map_nil, List.append_nil, turn_nil]
  split <;> rfl

/-- An event whose effect feeds one command back, which has at most one effect of its own. -/
lemma runTurn_feedback {effect : RelayEffect T} {n' : RelayNode T} {c : RelayCommand T}
    {source : Option ℕ} (hstep : relayStep n.kind n.namespace_ n.state ev = (s, [effect]))
    (heffect : runEffect { n with state := s } a none effect = ⟨n', [(c, source)], [], false⟩) :
    n.runTurn a ev = turn a 1023 [(.command c, source)] n' := by
  unfold runTurn maxFixpointSteps
  rw [turn_cons]
  simp only [hstep, runEffects_one, heffect, List.map_cons, List.map_nil, List.nil_append,
    Bool.false_eq_true, if_false]

lemma turn_untrack (hk : k.namespace_ = n.namespace_) (budget : ℕ) (source : Option ℕ) :
    turn a (budget + 1) [(.command (untrackFeedback k), source)] n =
      ({ n with state := (n.state.removeSession k).1 }, []) := by
  rw [turn_cons]
  simp only [untrackFeedback, relayStep, stepCommand, ← hk, runEffects, List.map_nil,
    List.append_nil, turn_nil, Bool.false_eq_true, if_false]

/-- `Abort` forgets its key, and tells the peer of a session that was there. -/
lemma turn_abort (hk : k.namespace_ = n.namespace_) (budget : ℕ) (source : Option ℕ) :
    turn a (budget + 1) [(.command (abortFeedback k), source)] n =
      ({ n with state := (n.state.removeSession k).1 },
        if (n.state.removeSession k).2 && a.outbox then
          [.frame source k.peer (.close k.session (openedByUs k))]
        else []) := by
  rw [turn_cons]
  obtain ⟨s, b, hremove⟩ : ∃ s b, n.state.removeSession k = (s, b) := ⟨_, _, rfl⟩
  cases b with
  | false =>
    simp only [abortFeedback, relayStep, stepCommand, ← hk, hremove, runEffects, List.map_nil,
      List.append_nil, turn_nil, Bool.false_eq_true, Bool.false_and, if_false]
  | true =>
    simp only [abortFeedback, relayStep, stepCommand, ← hk, hremove, runEffects_one, runEffect]
    cases a.outbox with
    | false => simp
    | true =>
      simp only [List.map_nil, List.append_nil, turn_nil, Bool.false_eq_true, if_false, if_true,
        Bool.and_self, openedByUs]

/-- A registration fails without a generation left, spends one on a key that is taken, or takes a
vacant key. -/
lemma register_cases (n : RelayNode T) (k : SessionKey) :
    n.register k = .failed ∨
      (∃ g, n.map k = some g ∧
        n.register k = .alreadyPresent { n with generations := n.generations + 1 }) ∨
      (n.map k = none ∧
        n.register k = .registered { n with
          map := Function.update n.map k (some n.generations)
          generations := n.generations + 1
          registered := Function.update n.registered n.generations k
          channels := Function.update n.channels n.generations ⟨[], false⟩ } n.generations) := by
  unfold register checkedAdd
  split
  · exact Or.inl rfl
  · rename_i generations hadd
    split at hadd <;> cases hadd
    cases hmap : n.map k with
    | some g => exact Or.inr (Or.inl ⟨g, rfl, rfl⟩)
    | none => exact Or.inr (Or.inr ⟨rfl, rfl⟩)

lemma spawnAccepted_eq (n : RelayNode T) (g : ℕ) (service : String) :
    ∃ stages, Started (n.tasks g) .local_ stages ∧
      n.spawnAccepted g service = { n with tasks := Function.update n.tasks g stages } := by
  unfold spawnAccepted
  split
  · exact ⟨_, .opens service, rfl⟩
  · refine ⟨_, .relays service, ?_⟩
    simp only [setStage, Function.update_self, Function.update_idem]

variable {item : Outbound} {item? : Option Outbound} {mints : Prop} {effect : RelayEffect T}

/-- A live session's item is queued, or finds no entry, or ends the entry whose queue admits
nothing. -/
lemma turned_deliver (hc : n.state.Counted) (hns : k.namespace_ = n.namespace_)
    (hk : k ∈ n.state.sessions) (hitem : item? = some item)
    (hstep : relayStep n.kind n.namespace_ n.state ev = (n.state, [effect]))
    (heffect : n.runEffect a none effect = n.deliver k item) :
    Turned n k item? mints (n.runTurn a ev).1 (n.runTurn a ev).2 := by
  obtain ⟨s, hremove, hs, hcounted, hnext⟩ := RelayState.removeSession_spec hc k
  have hr : n.state.Reduced s := ⟨hcounted, hnext.ge⟩
  unfold deliver at heffect
  cases hmap : n.map k with
  | none =>
    rw [hmap] at heffect
    rw [runTurn_feedback hstep heffect, turn_untrack hns, hremove]
    exact .forgotten hr hs hmap
  | some g =>
    rw [hmap] at heffect
    simp only at heffect
    by_cases hadmits : (n.channels g).admits = true
    · rw [if_pos hadmits] at heffect
      rw [runTurn_quiet hstep heffect]
      exact .queued hc hk hmap hitem
    · rw [if_neg hadmits] at heffect
      rw [runTurn_feedback hstep heffect, turn_abort (n := n.remove k) hns]
      simp only [remove, hremove]
      refine .aborted hr hk hs hmap ?_
      split
      · exact Or.inr rfl
      · exact Or.inl rfl

lemma turned_connect {target : T} {kind : TransportKind} (hr : n.state.Reduced s)
    (hns : k.namespace_ = n.namespace_) (hk : k ∉ n.state.sessions)
    (hs : s.sessions = insert k n.state.sessions) (hremote : k.initiator = .remote)
    (hstep : relayStep n.kind n.namespace_ n.state ev = (s, [.connect k target kind])) :
    Turned n k item? mints (n.runTurn a ev).1 (n.runTurn a ev).2 := by
  obtain ⟨s', hremove, hs', hcounted, hnext⟩ := RelayState.removeSession_spec hr.counted k
  have hr' : n.state.Reduced s' := ⟨hcounted, hnext ▸ hr.nextSession⟩
  have hsame : s'.sessions = n.state.sessions := by rw [hs', hs, Finset.erase_insert hk]
  -- the abort of a session without an entry
  have hfailed : runEffect { n with state := s } a none (.connect k target kind) =
      ⟨{ n with state := s }, [(abortFeedback k, none)], [], false⟩ →
      Turned n k item? mints (n.runTurn a ev).1 (n.runTurn a ev).2 := by
    intro heffect
    rw [runTurn_feedback hstep heffect, turn_abort (n := { n with state := s }) hns]
    simp only [hremove]
    refine .idle hr' hsame ?_
    have hopened : openedByUs k = false := by simp [openedByUs, hremote]
    split
    · exact Or.inr (by rw [hopened])
    · exact Or.inl rfl
  cases hruntime : a.runtime with
  | false => exact hfailed (by simp [runEffect, connect, hruntime])
  | true =>
    rcases register_cases { n with state := s } k with
      hreg | ⟨g, hmap, hreg⟩ | ⟨hmap, hreg⟩
    · exact hfailed (by simp [runEffect, connect, hruntime, hreg])
    · rw [runTurn_quiet hstep (by simp only [runEffect, connect, hruntime, hreg]; rfl)]
      exact .present hr hk hs hmap
    · rw [runTurn_quiet hstep (by simp only [runEffect, connect, hruntime, hreg]; rfl)]
      exact .opened hr hk hs hmap (hremote ▸ .dials) (Or.inr ⟨hremote, rfl⟩)

/-- A session this node opens is bound to its accepted resource, or forgotten at once. -/
lemma turned_bind {token : ℕ} {service : String} (hmints : mints) (hr : n.state.Reduced s)
    (hns : k.namespace_ = n.namespace_) (hk : k ∉ n.state.sessions)
    (hs : s.sessions = insert k n.state.sessions) (hlocal : k.initiator = .local_)
    (hsession : k.session = n.state.nextSession)
    (hminted : s.nextSession = n.state.nextSession + 1)
    (hstep : relayStep n.kind n.namespace_ n.state ev = (s, [.openAccepted token k service])) :
    Turned n k item? mints (n.runTurn a ev).1 (n.runTurn a ev).2 := by
  obtain ⟨s', hremove, hs', hcounted, hnext⟩ := RelayState.removeSession_spec hr.counted k
  have hr' : n.state.Reduced s' := ⟨hcounted, hnext ▸ hr.nextSession⟩
  have hsame : s'.sessions = n.state.sessions := by rw [hs', hs, Finset.erase_insert hk]
  have hfailed : runEffect { n with state := s } a none (.openAccepted token k service) =
      ⟨{ n with state := s }, [(untrackFeedback k, none)], [], false⟩ →
      Turned n k item? mints (n.runTurn a ev).1 (n.runTurn a ev).2 := by
    intro heffect
    rw [runTurn_feedback hstep heffect, turn_untrack (n := { n with state := s }) hns]
    simp only [hremove]
    exact .idle hr' hsame (Or.inl rfl)
  cases hheld : !a.held || !a.runtime with
  | true => exact hfailed (by simp [runEffect, bindAccepted, hheld])
  | false =>
    have hside : ((mints ∧ k.initiator = .local_ ∧ k.session = n.state.nextSession ∧
        s.nextSession = n.state.nextSession + 1 ∧ ([] : List Output) = []) ∨
        (k.initiator = .remote ∧ ([] : List Output) = [.connected n.generations])) :=
      Or.inl ⟨hmints, hlocal, hsession, hminted, rfl⟩
    rcases register_cases { n with state := s } k with
      hreg | ⟨g, hmap, hreg⟩ | ⟨hmap, hreg⟩
    · exact hfailed (by simp [runEffect, bindAccepted, hheld, hreg])
    · rw [runTurn_quiet hstep (by simp only [runEffect, bindAccepted, hheld, hreg]; rfl)]
      exact .present hr hk hs hmap
    · rw [runTurn_quiet hstep (by simp only [runEffect, bindAccepted, hheld, hreg]; rfl)]
      obtain ⟨stages, hstages, hspawn⟩ := spawnAccepted_eq { n with
        state := s
        map := Function.update n.map k (some n.generations)
        generations := n.generations + 1
        registered := Function.update n.registered n.generations k
        channels := Function.update n.channels n.generations ⟨[], false⟩ } n.generations service
      rw [hspawn]
      exact .opened hr hk hs hmap (hlocal ▸ hstages) hside

lemma turned_same (hc : n.state.Counted)
    (hstep : relayStep n.kind n.namespace_ n.state ev = (n.state, [])) :
    Turned n k item? mints (n.runTurn a ev).1 (n.runTurn a ev).2 := by
  rw [runTurn_pure hstep]
  exact .idle ⟨hc, le_refl _⟩ rfl (Or.inl rfl)

lemma turned_toLiveSession (hc : n.state.Counted) (hns : k.namespace_ = n.namespace_)
    (hitem : item? = some item) (carrier : TransportKind) (effect : SessionKey → RelayEffect T)
    (heffect : n.runEffect a none (effect k) = n.deliver k item)
    (hstep : relayStep n.kind n.namespace_ n.state ev =
      toLiveSession n.state n.kind carrier k effect) :
    Turned n k item? mints (n.runTurn a ev).1 (n.runTurn a ev).2 := by
  unfold toLiveSession at hstep
  split at hstep
  · rename_i hlive
    exact turned_deliver hc hns hlive.2 hitem hstep heffect
  · exact turned_same hc hstep

/-- A session that is not admitted is closed to its peer, when the control outbox has room. -/
lemma turned_rejected (hc : n.state.Counted) (hstep : relayStep n.kind n.namespace_ n.state ev =
      rejectedOpen n.state k) : Turned n k item? mints (n.runTurn a ev).1 (n.runTurn a ev).2 := by
  unfold rejectedOpen at hstep
  cases houtbox : a.outbox with
  | true =>
    rw [runTurn_quiet hstep (by simp only [runEffect, houtbox]; rfl)]
    exact .idle ⟨hc, le_refl _⟩ rfl (Or.inr rfl)
  | false =>
    rw [runTurn_quiet hstep (by simp only [runEffect, houtbox]; rfl)]
    exact .idle ⟨hc, le_refl _⟩ rfl (Or.inl rfl)

/-- **The turn of a peer's frame.** -/
lemma turned_frame (hc : n.state.Counted) (a : Answers) (sender : Did) (f : Frame)
    (hkey : (RelayEvent.frame sender f : RelayEvent T).key? n.namespace_ n.state = some k) :
    Turned n k f.item? False (n.runTurn a (.frame sender f)).1 (n.runTurn a (.frame sender f)).2 := by
  cases f with
  | data session fromOpener seq bytes =>
    cases hkey
    exact turned_toLiveSession hc rfl rfl .tcp (fun key => .write key seq bytes) rfl rfl
  | shutdown session fromOpener sent =>
    cases hkey
    exact turned_toLiveSession hc rfl rfl .tcp (fun key => .shutdown key sent) rfl rfl
  | datagram session fromOpener bytes =>
    cases hkey
    exact turned_toLiveSession hc rfl rfl .udp (fun key => .sendDatagram key bytes) rfl rfl
  | close session fromOpener =>
    obtain rfl := Option.some.inj hkey
    obtain ⟨s, hremove, hs, hcounted, hnext⟩ := RelayState.removeSession_spec hc
      ⟨sender, n.namespace_, session, openerToInitiator fromOpener⟩
    have hr : n.state.Reduced s := ⟨hcounted, hnext.ge⟩
    by_cases hk : (⟨sender, n.namespace_, session, openerToInitiator fromOpener⟩ : SessionKey) ∈
        n.state.sessions
    · have hstep : relayStep n.kind n.namespace_ n.state
          (.frame sender (.close session fromOpener)) = (s,
            [.close ⟨sender, n.namespace_, session, openerToInitiator fromOpener⟩]) := by
        simp only [relayStep, stepFrame, if_pos hk, hremove]
      cases hmap : n.map ⟨sender, n.namespace_, session, openerToInitiator fromOpener⟩ with
      | none =>
        rw [runTurn_quiet hstep (by simp only [runEffect, closeForEffect, hmap]; rfl)]
        exact .forgotten hr hs hmap
      | some g =>
        rw [runTurn_quiet hstep (by simp only [runEffect, closeForEffect, hmap]; rfl)]
        exact .closed hr hk hs hmap
    · exact turned_same hc (by simp only [relayStep, stepFrame, if_neg hk])
  | open_ session service =>
    obtain rfl := Option.some.inj hkey
    by_cases hk : (⟨sender, n.namespace_, session, .remote⟩ : SessionKey) ∈ n.state.sessions
    · exact turned_same hc (by simp only [relayStep, stepFrame, if_pos hk])
    cases hservice : n.state.services service with
    | none =>
      exact turned_rejected hc (by simp only [relayStep, stepFrame, if_neg hk, hservice])
    | some target =>
      cases hadmit : n.state.canAdmitSession ⟨sender, n.namespace_, session, .remote⟩ with
      | false =>
        exact turned_rejected hc (by
          simp only [relayStep, stepFrame, if_neg hk, hservice, hadmit]
          rfl)
      | true =>
        rcases RelayState.insertSession_cases hc ⟨sender, n.namespace_, session, .remote⟩ with
          hinsert | ⟨s, hinsert, -, hs, hcounted, hnext⟩
        · exact turned_rejected hc (by
            simp only [relayStep, stepFrame, if_neg hk, hservice, hadmit, hinsert]
            rfl)
        · have hstep : relayStep n.kind n.namespace_ n.state (.frame sender (.open_ session service)) =
              (s, [.connect ⟨sender, n.namespace_, session, .remote⟩ target n.kind]) := by
            simp only [relayStep, stepFrame, if_neg hk, hservice, hadmit, hinsert]
            rfl
          exact turned_connect ⟨hcounted, hnext.ge⟩ rfl hk hs rfl hstep

/-- **The turn of an accepted connection**, at the key its session gets. -/
lemma turned_accepted (hc : n.state.Counted) (a : Answers) (token : ℕ) (peer : Did)
    (service : String) :
    Turned n ⟨peer, n.namespace_, n.state.nextSession, .local_⟩ none True
      (n.runTurn a (.command (.accepted token peer service))).1
      (n.runTurn a (.command (.accepted token peer service))).2 := by
  have hrejected : ∀ s : RelayState T, n.state.Reduced s → s.sessions = n.state.sessions →
      relayStep n.kind n.namespace_ n.state (.command (.accepted token peer service)) =
        (s, [.rejectAccepted token]) →
      Turned n ⟨peer, n.namespace_, n.state.nextSession, .local_⟩ none True
        (n.runTurn a (.command (.accepted token peer service))).1
        (n.runTurn a (.command (.accepted token peer service))).2 := by
    intro s hr hs hstep
    rw [runTurn_quiet hstep rfl]
    exact .idle hr hs (Or.inl rfl)
  cases hadmit : n.state.canAdmitSession
      ⟨peer, n.namespace_, n.state.nextSession, .local_⟩ with
  | false =>
    refine hrejected n.state ⟨hc, le_refl _⟩ rfl ?_
    simp only [relayStep, stepCommand, hadmit]
    rfl
  | true =>
    cases hadd : checkedAdd u64Max n.state.nextSession 1 with
    | none =>
      refine hrejected n.state ⟨hc, le_refl _⟩ rfl ?_
      simp only [relayStep, stepCommand, hadmit, hadd]
      rfl
    | some next =>
      have hnext : next = n.state.nextSession + 1 := by
        unfold checkedAdd at hadd
        split at hadd <;> cases hadd
        rfl
      have hc' : ({ n.state with nextSession := next } : RelayState T).Counted :=
        hc.congr rfl rfl
      rcases RelayState.insertSession_cases hc'
          ⟨peer, n.namespace_, n.state.nextSession, .local_⟩ with
        hinsert | ⟨s, hinsert, hk, hs, hcounted, hs'⟩
      · refine hrejected _ ⟨hc', ?_⟩ rfl ?_
        · simp only
          omega
        · simp only [relayStep, stepCommand, hadmit, hadd, hinsert]
          rfl
      · simp only at hs'
        have hstep : relayStep n.kind n.namespace_ n.state
            (.command (.accepted token peer service)) =
            (s, [.openAccepted token ⟨peer, n.namespace_, n.state.nextSession, .local_⟩ service]) := by
          simp only [relayStep, stepCommand, hadmit, hadd, hinsert]
          rfl
        exact turned_bind trivial ⟨hcounted, by omega⟩ rfl hk hs rfl rfl (by omega) hstep

lemma turned_register (hc : n.state.Counted) (a : Answers) (name : String) (target : T)
    (k : SessionKey) :
    Turned n k none False (n.runTurn a (.command (.registerService name target))).1
      (n.runTurn a (.command (.registerService name target))).2 := by
  have hstep : relayStep n.kind n.namespace_ n.state (.command (.registerService name target)) =
      ({ n.state with services := Function.update n.state.services name (some target) }, []) :=
    rfl
  rw [runTurn_pure hstep]
  exact .idle ⟨hc.congr rfl rfl, le_refl _⟩ rfl (Or.inl rfl)

lemma runTurn_untrack (a : Answers) (hns : k.namespace_ = n.namespace_) :
    n.runTurn a (.command (untrackFeedback k)) =
      ({ n with state := (n.state.removeSession k).1 }, []) := by
  unfold runTurn maxFixpointSteps
  exact turn_untrack hns _ _

end RelayNode

/-! ### The step of a task -/

/-- A frame about the session `key`, as the end that holds the key sends it. -/
def Frame.Of (key : SessionKey) : Frame → Prop
  | .open_ session _ => session = key.session
  | .data session fromOpener _ _ => session = key.session ∧ fromOpener = openedByUs key
  | .datagram session fromOpener _ => session = key.session ∧ fromOpener = openedByUs key
  | .shutdown session fromOpener _ => session = key.session ∧ fromOpener = openedByUs key
  | .close session fromOpener => session = key.session ∧ fromOpener = openedByUs key

def Frame.isClose : Frame → Bool
  | .close _ _ => true
  | _ => false

lemma Read.frame_of (r : Read) (key : SessionKey) :
    (r.frame key).isClose = false ∧ (r.frame key).Of key ∧ (r.frame key).opens ≤ 0 := by
  cases r <;> exact ⟨rfl, ⟨rfl, rfl⟩, le_refl _⟩

namespace TaskStage

/-- The `Close`s the task has yet to send. -/
def owes : TaskStage → ℕ
  | .untracking true | .notifying => 1
  | _ => 0

/-- Whether the task waits for the admission of its `Open`. -/
def opens : TaskStage → ℕ
  | .opening _ _ => 1
  | _ => 0

def reports : TaskStage → Bool
  | .untracking _ => true
  | _ => false

end TaskStage

inductive Worked (n : RelayNode T) (g : ℕ) (role : TaskRole) (act : TaskAct) :
    RelayNode T → List Output → Prop
  | quiet : Worked n g role act n []
  | moved {stage : TaskStage} {channels : ℕ → Channel} {outs : List Output}
    (hused : n.tasks g role ≠ .idle ∧ stage ≠ .idle)
    (howes : (n.tasks g role).owes = 0 ∧ stage.owes = 0)
    (hopens : stage.opens ≤ (n.tasks g role).opens)
    (hreports : (n.tasks g role).reports = false ∧ stage.reports = false)
    (houts : outs = [] ∨ ∃ f : Frame, outs = [n.sendFrame g f] ∧ f.isClose = false ∧
      f.Of (n.registered g) ∧ f.opens ≤ (n.tasks g role).opens) :
    Worked n g role act { n.setStage g role stage with channels := channels } outs
  | released {notify : Bool} (hused : n.tasks g role ≠ .idle) (howes : (n.tasks g role).owes = 0)
    (hreports : (n.tasks g role).reports = false) (hmap : n.map (n.registered g) = some g) :
    Worked n g role act
      ((n.remove (n.registered g)).setStage g role (.untracking notify)) []
  | gone {service : String} (hact : act = .opened true)
    (hstage : n.tasks g role = .opening service true)
    (hmap : n.map (n.registered g) = none) :
    Worked n g role act (n.setStage g role .notifying) []
  | reported {notify : Bool} {s : RelayState T} (hact : act = .untracked)
    (hstage : n.tasks g role = .untracking notify) (hs : s = (n.state.removeSession (n.registered g)).1) :
    Worked n g role act
      { n.setStage g role (if notify then .notifying else .done) with state := s } []
  | notified (hstage : n.tasks g role = .notifying) :
    Worked n g role act (n.setStage g role .done)
      [n.sendFrame g
        (.close (n.registered g).session (openedByUs (n.registered g)))]

namespace RelayNode

variable {n : RelayNode T} {g : ℕ} {role : TaskRole} {act : TaskAct}

lemma setStage_self {stage : TaskStage} (h : n.tasks g role = stage) :
    n.setStage g role stage = n := by
  unfold setStage
  rw [← h, Function.update_eq_self, Function.update_eq_self]

lemma worked_moved {stage : TaskStage} {outs : List Output}
    (hused : n.tasks g role ≠ .idle ∧ stage ≠ .idle)
    (howes : (n.tasks g role).owes = 0 ∧ stage.owes = 0)
    (hopens : stage.opens ≤ (n.tasks g role).opens)
    (hreports : (n.tasks g role).reports = false ∧ stage.reports = false)
    (houts : outs = [] ∨ ∃ f : Frame, outs = [n.sendFrame g f] ∧ f.isClose = false ∧
      f.Of (n.registered g) ∧ f.opens ≤ (n.tasks g role).opens) :
    Worked n g role act (n.setStage g role stage) outs :=
  @Worked.moved T n g role act stage n.channels outs hused howes hopens hreports houts

lemma worked_closeIfCurrent (notify : Bool) (hused : n.tasks g role ≠ .idle)
    (howes : (n.tasks g role).owes = 0)
    (hreports : (n.tasks g role).reports = false) :
    Worked n g role act (n.closeIfCurrent g role notify) [] := by
  unfold closeIfCurrent
  split
  · rename_i hmap
    exact .released hused howes hreports hmap
  · exact worked_moved ⟨hused, by simp⟩ ⟨howes, rfl⟩ (Nat.zero_le _) ⟨hreports, rfl⟩
      (Or.inl rfl)

lemma worked_opened {service : String} (hstage : n.tasks g role = .opening service true) :
    Worked n g role (.opened true) (n.opened g role) [] := by
  have hused : n.tasks g role ≠ .idle := by simp [hstage]
  have howes : (n.tasks g role).owes = 0 := by rw [hstage]; rfl
  have hreports : (n.tasks g role).reports = false := by rw [hstage]; rfl
  unfold opened
  split
  · rename_i hmap
    exact .gone rfl hstage hmap
  · split
    · cases role with
      | socket =>
        exact worked_moved ⟨hused, by simp⟩ ⟨howes, rfl⟩ (Nat.zero_le _) ⟨hreports, rfl⟩
          (Or.inl rfl)
      | opener =>
        exact worked_moved ⟨hused, by simp⟩ ⟨howes, rfl⟩ (Nat.zero_le _) ⟨hreports, rfl⟩
          (Or.inl rfl)
    · exact worked_moved ⟨hused, by simp⟩ ⟨howes, rfl⟩ (Nat.zero_le _) ⟨hreports, rfl⟩
        (Or.inl rfl)

lemma worked_moves {old stage : TaskStage} (hstage : n.tasks g role = old)
    (hused : old ≠ .idle ∧ stage ≠ .idle) (howes : old.owes = 0 ∧ stage.owes = 0)
    (hopens : stage.opens ≤ old.opens)
    (hreports : old.reports = false ∧ stage.reports = false) :
    Worked n g role act (n.setStage g role stage) [] := by
  subst hstage
  exact worked_moved hused howes hopens hreports (Or.inl rfl)

/-- A task that sends about its session, and moves on from the stage `old`. -/
lemma worked_sends {old stage : TaskStage} {f : Frame} (hstage : n.tasks g role = old)
    (hused : old ≠ .idle ∧ stage ≠ .idle) (howes : old.owes = 0 ∧ stage.owes = 0)
    (hopens : stage.opens ≤ old.opens)
    (hreports : old.reports = false ∧ stage.reports = false)
    (hf : f.isClose = false ∧ f.Of (n.registered g) ∧ f.opens ≤ old.opens) :
    Worked n g role act (n.setStage g role stage) [n.sendFrame g f] := by
  subst hstage
  exact worked_moved hused howes hopens hreports (Or.inr ⟨f, rfl, hf⟩)

lemma worked_says {old : TaskStage} {f : Frame} (hstage : n.tasks g role = old)
    (hused : old ≠ .idle) (howes : old.owes = 0) (hreports : old.reports = false)
    (hf : f.isClose = false ∧ f.Of (n.registered g) ∧ f.opens ≤ old.opens) :
    Worked n g role act n [n.sendFrame g f] := by
  have hsends : Worked n g role act (n.setStage g role old) [n.sendFrame g f] :=
    worked_sends hstage ⟨hused, hused⟩ ⟨howes, howes⟩ (le_refl _) ⟨hreports, hreports⟩ hf
  rwa [setStage_self hstage] at hsends

lemma worked_channels {old stage : TaskStage} (hstage : n.tasks g role = old)
    (hused : old ≠ .idle ∧ stage ≠ .idle) (howes : old.owes = 0 ∧ stage.owes = 0)
    (hopens : stage.opens ≤ old.opens)
    (hreports : old.reports = false ∧ stage.reports = false) (channels : ℕ → Channel) :
    Worked n g role act { n.setStage g role stage with channels := channels } [] := by
  subst hstage
  exact .moved hused howes hopens hreports (Or.inl rfl)

lemma worked_ends {old : TaskStage} (hstage : n.tasks g role = old) (hused : old ≠ .idle)
    (howes : old.owes = 0)
    (hreports : old.reports = false) (notify : Bool) :
    Worked n g role act (n.closeIfCurrent g role notify) [] := by
  subst hstage
  exact worked_closeIfCurrent notify hused howes hreports

/-- **The step of a task.** -/
lemma worked_work (hns : (n.registered g).namespace_ = n.namespace_) (act : TaskAct) :
    Worked n g role act (n.work g role act).1 (n.work g role act).2 := by
  unfold work
  simp only []
  split
  · rename_i hstage
    exact worked_sends hstage (by simp) ⟨rfl, rfl⟩ (le_refl _) ⟨rfl, rfl⟩ ⟨rfl, rfl, le_refl _⟩
  · rename_i hstage
    exact worked_ends hstage (by simp) rfl rfl true
  · rename_i hstage
    exact worked_opened hstage
  · rename_i hstage
    exact worked_sends hstage (by simp) ⟨rfl, rfl⟩ (le_refl _) ⟨rfl, rfl⟩ ⟨rfl, ⟨rfl, rfl⟩, le_refl _⟩
  · rename_i hstage
    exact worked_ends hstage (by simp) rfl rfl false
  · rename_i hstage
    split
    · exact worked_moves hstage (by simp) ⟨rfl, rfl⟩ (le_refl _) ⟨rfl, rfl⟩
    · exact worked_ends hstage (by simp) rfl rfl true
  · rename_i hstage
    exact worked_says hstage (by simp) rfl rfl ⟨rfl, ⟨rfl, rfl⟩, le_refl _⟩
  · rename_i hstage
    split
    · exact worked_moves hstage (by simp) ⟨rfl, rfl⟩ (le_refl _) ⟨rfl, rfl⟩
    · exact worked_ends hstage (by simp) rfl rfl true
  · rename_i r hstage
    split
    · exact worked_says hstage (by simp) rfl rfl (r.frame_of _)
    · exact .quiet
  · rename_i hstage
    have htook : Worked n g role .recv { n.setStage g role .relaying with
        channels := Function.update n.channels g
          { n.channels g with queue := (n.channels g).queue.tail } } [] :=
      worked_channels hstage (by simp) ⟨rfl, rfl⟩ (le_refl _) ⟨rfl, rfl⟩ _
    rwa [setStage_self hstage] at htook
  · rename_i hstage
    exact worked_ends hstage (by simp) rfl rfl true
  · rename_i notify hstage
    rw [runTurn_untrack _ hns]
    exact .reported rfl hstage rfl
  · rename_i hstage
    exact .notified hstage
  · rename_i hstage
    exact worked_channels hstage (by simp) ⟨rfl, rfl⟩ (Nat.zero_le _) ⟨rfl, rfl⟩ _
  · rename_i hstage
    exact worked_channels hstage (by simp) ⟨rfl, rfl⟩ (Nat.zero_le _) ⟨rfl, rfl⟩ _
  · rename_i hstage
    exact worked_channels hstage (by simp) ⟨rfl, rfl⟩ (Nat.zero_le _) ⟨rfl, rfl⟩ _
  · rename_i hstage
    exact worked_channels hstage (by simp) ⟨rfl, rfl⟩ (Nat.zero_le _) ⟨rfl, rfl⟩ _
  · exact .quiet

end RelayNode

end Rings.Transport
