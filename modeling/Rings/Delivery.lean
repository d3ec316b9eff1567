import Rings.ChordFixpoint

/-!
Delivery toward a node: the stage a carrier travels in, one delivery step over a view and a
link predicate, and the route that iterates it.

A step sends to the destination over a direct link, to the aim over a direct link, forward to
a linked peer on the arc `(n, aim]`, or once past the aim by a handoff that marks the stage.
-/

namespace Rings

/-! ### Stages and steps -/

structure RouteStage where
  via : Option Did
  handedOff : Bool
  deriving DecidableEq

namespace RouteStage

def toward : RouteStage := ⟨none, false⟩

/-- The start stage of a report whose request named `replyVia`. -/
def replyingVia (replyVia : Option Did) : RouteStage := ⟨replyVia, false⟩

def handOff (stage : RouteStage) : RouteStage := ⟨stage.via, true⟩

/-- The node this stage routes toward for a payload addressed to `destination`. -/
def aim (stage : RouteStage) (destination : Did) : Did := stage.via.getD destination

end RouteStage

structure NextHop where
  peer : Did
  stage : RouteStage
  deriving DecidableEq

inductive RouteStep
  | forward (peer : Did)
  | handoff (peer : Did)
  | isolated
  deriving DecidableEq

/-- `peer` lies on the half-open arc from `loc` of length `target`. -/
def reaches (loc peer : Did) (target : ℕ) : Bool := peer ≠ loc && dist loc peer ≤ target

def linkedKnownPeers (s : TopologyState) (linked : Did → Bool) : List Did :=
  (s.successors ++ s.fingers.filterMap id).filter fun peer => peer ≠ s.localDid && linked peer

def routeToward (s : TopologyState) (aim : Did) (linked : Did → Bool) : RouteStep :=
  let target := dist s.localDid aim
  let peers := linkedKnownPeers s linked
  match (peers.filter (reaches s.localDid · target)).argmax (dist s.localDid) with
  | some next => .forward next
  | none => (peers.argmin (dist s.localDid)).elim .isolated .handoff

/-- One delivery step for a payload addressed to `destination` whose carrier is in `stage`;
`none` ends the route undelivered. -/
def deliveryStep (view : TopologyState) (destination : Did) (stage : RouteStage)
    (linked : Did → Bool) : Option NextHop :=
  if linked destination then some ⟨destination, stage⟩
  else
    let aim := stage.aim destination
    if aim ≠ destination ∧ aim = view.localDid then none
    else if aim ≠ destination ∧ linked aim then some ⟨aim, stage⟩
    else match routeToward view aim linked with
      | .forward peer => some ⟨peer, stage⟩
      | .handoff peer => if stage.handedOff then none else some ⟨peer, stage.handOff⟩
      | .isolated => none

/-! ### What a step can do -/

section Step

variable {s : TopologyState} {linked : Did → Bool} {aim p : Did}

/-- The view names `p` as a successor or a finger. -/
def Names (s : TopologyState) (p : Did) : Prop := p ∈ s.successors ∨ some p ∈ s.fingers

lemma mem_linkedKnownPeers : p ∈ linkedKnownPeers s linked ↔
    Names s p ∧ p ≠ s.localDid ∧ linked p = true := by
  simp [linkedKnownPeers, Names, or_and_right]

lemma routeToward_forward (h : routeToward s aim linked = .forward p) :
    Names s p ∧ p ≠ s.localDid ∧ dist s.localDid p ≤ dist s.localDid aim ∧
      ∀ q, Names s q → q ≠ s.localDid → linked q = true →
        dist s.localDid q ≤ dist s.localDid aim → dist s.localDid q ≤ dist s.localDid p := by
  unfold routeToward at h
  dsimp only at h
  split at h
  · rename_i next hmax
    obtain rfl := RouteStep.forward.inj h
    obtain ⟨hmem, hreach⟩ := List.mem_filter.mp (List.argmax_mem hmax)
    obtain ⟨hname, hne, -⟩ := mem_linkedKnownPeers.mp hmem
    simp only [reaches, Bool.and_eq_true, decide_eq_true_eq] at hreach
    refine ⟨hname, hne, hreach.2, fun q hq hqn hql hqd => ?_⟩
    refine List.le_of_mem_argmax (List.mem_filter.mpr ⟨mem_linkedKnownPeers.mpr ⟨hq, hqn, hql⟩, ?_⟩)
      hmax
    simpa [reaches] using ⟨hqn, hqd⟩
  · rcases hm : (linkedKnownPeers s linked).argmin (dist s.localDid) with _ | q <;>
      rw [hm] at h <;> cases h

/-- A handoff happens only when no linked known peer lies on the arc to the aim. -/
lemma routeToward_handoff (h : routeToward s aim linked = .handoff p) :
    Names s p ∧ p ≠ s.localDid ∧ ∀ q, Names s q → q ≠ s.localDid → linked q = true →
      dist s.localDid aim < dist s.localDid q := by
  unfold routeToward at h
  dsimp only at h
  split at h
  · cases h
  · rename_i hmax
    rcases hm : (linkedKnownPeers s linked).argmin (dist s.localDid) with _ | q <;> rw [hm] at h
    · cases h
    · obtain rfl := RouteStep.handoff.inj h
      obtain ⟨hname, hne, -⟩ := mem_linkedKnownPeers.mp (List.argmin_mem hm)
      refine ⟨hname, hne, fun q hq hqn hql => ?_⟩
      by_contra hlt
      have hnil := List.filter_eq_nil_iff.mp (List.argmax_eq_none.mp hmax) q
        (mem_linkedKnownPeers.mpr ⟨hq, hqn, hql⟩)
      exact hnil (by simpa [reaches] using ⟨hqn, by omega⟩)

/-- A linked known peer on the arc makes the step a forward one. -/
lemma routeToward_of_mem {q : Did} (hq : Names s q) (hqn : q ≠ s.localDid) (hql : linked q = true)
    (hd : dist s.localDid q ≤ dist s.localDid aim) :
    ∃ p, routeToward s aim linked = .forward p := by
  unfold routeToward
  dsimp only
  split
  · exact ⟨_, rfl⟩
  · rename_i hmax
    have hnil := List.filter_eq_nil_iff.mp (List.argmax_eq_none.mp hmax) q
      (mem_linkedKnownPeers.mpr ⟨hq, hqn, hql⟩)
    exact absurd (by simpa [reaches] using ⟨hqn, hd⟩) hnil

lemma deliveryStep_cases {T : Did} {stage : RouteStage} {hop : NextHop}
    (h : deliveryStep s T stage linked = some hop) :
    (hop = ⟨T, stage⟩ ∧ linked T = true) ∨
    (linked T = false ∧ (stage.aim T ≠ T → stage.aim T ≠ s.localDid) ∧
      ((stage.aim T ≠ T ∧ hop = ⟨stage.aim T, stage⟩) ∨
      (∃ p, routeToward s (stage.aim T) linked = .forward p ∧ hop = ⟨p, stage⟩) ∨
      (∃ p, routeToward s (stage.aim T) linked = .handoff p ∧ stage.handedOff = false ∧
        hop = ⟨p, stage.handOff⟩))) := by
  unfold deliveryStep at h
  split at h
  · rename_i hT
    exact Or.inl ⟨(Option.some.inj h).symm, hT⟩
  rename_i hT
  dsimp only at h
  split at h
  · cases h
  rename_i hvia
  refine Or.inr ⟨by simpa using hT, fun h1 h2 => hvia ⟨h1, h2⟩, ?_⟩
  split at h
  · rename_i hlink
    exact Or.inl ⟨hlink.1, (Option.some.inj h).symm⟩
  split at h
  · rename_i p hp
    exact Or.inr (Or.inl ⟨p, hp, (Option.some.inj h).symm⟩)
  · rename_i p hp
    split at h
    · cases h
    · rename_i hoff
      exact Or.inr (Or.inr ⟨p, hp, by simpa using hoff, (Option.some.inj h).symm⟩)
  · cases h

end Step

/-! ### Routes -/

/-- One hop of a route: the node and stage it leaves, and where it goes. -/
structure Hop where
  origin : Did
  before : RouteStage
  next : NextHop
  deriving DecidableEq

/-- The hops from `n` until a step answers none or sends to `T`, at most `fuel` of them. The
views and links of hop `i` are its own. -/
def route (view : ℕ → Did → TopologyState) (linked : ℕ → Did → Did → Bool) (T : Did) :
    ℕ → ℕ → Did → RouteStage → List Hop
  | 0, _, _, _ => []
  | fuel + 1, i, n, stage =>
    match deliveryStep (view i n) T stage (linked i n) with
    | none => []
    | some hop =>
      ⟨n, stage, hop⟩ ::
        if hop.peer = T then [] else route view linked T fuel (i + 1) hop.peer hop.stage

/-- The hop passes its aim: it does not deliver, and it lands beyond the node it aims at. -/
def Hop.passesAim (T : Did) (h : Hop) : Bool :=
  h.next.peer ≠ T && dist h.origin (h.before.aim T) < dist h.origin h.next.peer

end Rings
