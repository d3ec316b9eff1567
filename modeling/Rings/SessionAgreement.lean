import Rings.SessionTurns
import Mathlib.Tactic

/-!
The live sessions of a relay, as its reducer and its engine know them.

A task removes its entry first and reports the removal later, by key. While every such report
finds no newer entry at its key, the engine's table lies in the session set and differs from it
only by the keys still to be reported; and while no `Open` outlives a session that this end has
already closed to its peer, each session's end sends at most one `Close`.
-/

namespace Rings.Transport

variable {T : Type*}

structure RelayHistory (T : Type*) where
  node : RelayNode T
  trace : List Output

/-- A `Close` sent for the session of generation `g`. -/
def Output.closes (g : ℕ) : Output → Bool
  | .frame (some generation) _ f => generation = g && f.isClose
  | _ => false

/-- What the two tasks of a generation amount to under `weight`. -/
def tally (weight : TaskStage → ℕ) (stages : TaskRole → TaskStage) : ℕ :=
  weight (stages .socket) + weight (stages .opener)

lemma tally_update (weight : TaskStage → ℕ) (stages : TaskRole → TaskStage) (role : TaskRole)
    (stage : TaskStage) : tally weight (Function.update stages role stage) + weight (stages role) =
      tally weight stages + weight stage := by
  unfold tally
  cases role with
  | socket => simp only [Function.update_self, ne_eq, reduceCtorEq, not_false_eq_true,
      Function.update_of_ne]; omega
  | opener => simp only [Function.update_self, ne_eq, reduceCtorEq, not_false_eq_true,
      Function.update_of_ne]; omega

namespace RelayHistory

def start (kind : TransportKind) (ns : String) : RelayHistory T := ⟨.new kind ns, []⟩

variable (h : RelayHistory T)

def step (op : NodeOp T) : RelayHistory T :=
  ⟨(h.node.step op).1, h.trace ++ (h.node.step op).2⟩

def run (ops : List (NodeOp T)) : RelayHistory T := ops.foldl step h

def closes (g : ℕ) : ℕ := h.trace.countP (Output.closes g)

/-- The `Close`s the tasks of generation `g` have yet to send. -/
def owed (g : ℕ) : ℕ := tally TaskStage.owes (h.node.tasks g)

def opening (g : ℕ) : ℕ := tally TaskStage.opens (h.node.tasks g)

/-- The report of a removal finds no newer session at its key; an `Open` that reached the
transport after the end of its session finds no `Close` of it sent or owed. -/
def Clear : NodeOp T → Prop
  | .work g role .untracked =>
    (h.node.tasks g role).reports = true → h.node.map (h.node.registered g) = none
  | .work g role (.opened true) =>
    ∀ service, h.node.tasks g role = .opening service true →
      h.node.map (h.node.registered g) = none → h.closes g + h.owed g = 0
  | _ => True

def ClearRun (ops : List (NodeOp T)) : Prop :=
  ∀ before op after, ops = before ++ op :: after → (h.run before).Clear op

/-- Generation `g` has the entry of its key. -/
def Owns (g : ℕ) : Prop := h.node.map (h.node.registered g) = some g

structure Accounted (g : ℕ) : Prop where
  opening : h.opening g ≤ 1
  once : h.closes g + h.owed g ≤ 1
  live : h.Owns g → h.closes g + h.owed g = 0

/-- No task has or had generation `g`. -/
structure Unused (g : ℕ) : Prop where
  idle : ∀ role, h.node.tasks g role = .idle
  vacant : ∀ k, h.node.map k ≠ some g
  silent : h.closes g = 0

/-- What relates the reducer's sessions, the engine's table and its tasks. -/
structure Agrees : Prop where
  counted : h.node.state.Counted
  named : ∀ g, (h.node.registered g).namespace_ = h.node.namespace_
  unused : ∀ g, h.node.generations ≤ g → h.Unused g
  owner : ∀ k g, h.node.map k = some g → h.node.registered g = k
  live : ∀ k, h.node.map k ≠ none → k ∈ h.node.state.sessions
  pending : ∀ k ∈ h.node.state.sessions, h.node.map k = none →
    ∃ g role, h.node.registered g = k ∧ (h.node.tasks g role).reports = true
  accounted : ∀ g, h.Accounted g

variable {h}
variable {g : ℕ} {n : RelayNode T} {outs : List Output}

lemma Accounted.mono {h' : RelayHistory T} (ha : h.Accounted g)
    (hopening : h'.opening g ≤ h.opening g)
    (hsent : h'.closes g + h'.owed g = h.closes g + h.owed g) (howns : h'.Owns g → h.Owns g) :
    h'.Accounted g where
  opening := le_trans hopening ha.opening
  once := hsent ▸ ha.once
  live hlive := hsent ▸ ha.live (howns hlive)

lemma Unused.accounted (hu : h.Unused g) : h.Accounted g where
  opening := by simp [opening, tally, hu.idle, TaskStage.opens]
  once := by simp [owed, tally, hu.idle, TaskStage.owes, hu.silent]
  live hlive := absurd hlive (hu.vacant _)

def Mute (outs : List Output) : Prop := ∀ g, outs.countP (Output.closes g) = 0

lemma closes_append (g : ℕ) : closes ⟨n, h.trace ++ outs⟩ g =
    h.closes g + outs.countP (Output.closes g) := List.countP_append

lemma closes_mute (hmute : Mute outs) (g : ℕ) : closes ⟨n, h.trace ++ outs⟩ g = h.closes g := by
  rw [closes_append, hmute g, Nat.add_zero]

lemma agrees_start (kind : TransportKind) (ns : String) :
    (start kind ns : RelayHistory T).Agrees := by
  have hunused : ∀ g, (start kind ns : RelayHistory T).Unused g := fun g =>
    ⟨fun _ => rfl, by simp [start, RelayNode.new], rfl⟩
  exact {
    counted := RelayState.counted_new
    named := fun _ => rfl
    unused := fun g _ => hunused g
    owner := fun _ _ hmap => by cases hmap
    live := fun _ hmap => absurd rfl hmap
    pending := fun _ hk => by cases hk
    accounted := fun g => (hunused g).accounted }

/-! ### A turn of the reducer -/

lemma Agrees.reduce (ha : h.Agrees) {s : RelayState T} (channels : ℕ → Channel)
    (hcounted : s.Counted) (hlive : ∀ k, h.node.map k ≠ none → k ∈ s.sessions)
    (hpending : ∀ k ∈ s.sessions, h.node.map k = none → k ∈ h.node.state.sessions)
    (hmute : Mute outs) :
    Agrees ⟨{ h.node with state := s, channels := channels }, h.trace ++ outs⟩ where
  counted := hcounted
  named := ha.named
  unused g hg := by
    obtain ⟨hidle, hvacant, hsilent⟩ := ha.unused g hg
    refine ⟨hidle, hvacant, ?_⟩
    rw [closes_mute hmute, hsilent]
  owner := ha.owner
  live := hlive
  pending k hk hmap := ha.pending k (hpending k hk hmap) hmap
  accounted g := (ha.accounted g).mono (le_refl _) (by rw [closes_mute hmute]; rfl) id

/-- Outputs that end the session of generation `g`, with one `Close` at most. -/
structure Ends (g : ℕ) (outs : List Output) : Prop where
  others : ∀ g', g' ≠ g → outs.countP (Output.closes g') = 0
  once : outs.countP (Output.closes g) ≤ 1

lemma owns_remove {k : SessionKey} {g' : ℕ} (hmap : h.node.map k = some g) (hg : g' ≠ g)
    {s : RelayState T} :
    Owns ⟨{ h.node.remove k with state := s }, h.trace ++ outs⟩ g' ↔ h.Owns g' := by
  unfold Owns RelayNode.remove
  simp only
  by_cases hk : h.node.registered g' = k
  · rw [hk, Function.update_self, hmap]
    constructor
    · intro hnone
      cases hnone
    · intro hsome
      exact absurd (Option.some.inj hsome).symm hg
  · rw [Function.update_of_ne hk]

lemma Agrees.remove (ha : h.Agrees) {k : SessionKey} {s : RelayState T} (hcounted : s.Counted)
    (hs : s.sessions = h.node.state.sessions.erase k) (hmap : h.node.map k = some g)
    (houts : Ends g outs) :
    Agrees ⟨{ h.node.remove k with state := s }, h.trace ++ outs⟩ := by
  have hkey := ha.owner k g hmap
  have howns : h.Owns g := by
    unfold Owns
    rw [hkey, hmap]
  constructor
  · exact hcounted
  · exact ha.named
  · intro g' hg'
    obtain ⟨hidle, hvacant, hsilent⟩ := ha.unused g' hg'
    have hne : g' ≠ g := by
      rintro rfl
      exact hvacant k hmap
    refine ⟨hidle, fun k' => ?_, ?_⟩
    · simp only [RelayNode.remove, Function.update_apply]
      split
      · simp
      · exact hvacant k'
    · rw [closes_append, hsilent, houts.others g' hne]
  · intro k' g' hmap'
    simp only [RelayNode.remove, Function.update_apply] at hmap'
    split at hmap'
    · cases hmap'
    · exact ha.owner k' g' hmap'
  · intro k' hmap'
    simp only [RelayNode.remove, Function.update_apply] at hmap'
    split at hmap'
    · exact absurd rfl hmap'
    · rename_i hne
      simp only [hs]
      exact Finset.mem_erase.mpr ⟨hne, ha.live k' hmap'⟩
  · intro k' hk' hmap'
    simp only [hs, Finset.mem_erase] at hk'
    simp only [RelayNode.remove, Function.update_of_ne hk'.1] at hmap'
    exact ha.pending k' hk'.2 hmap'
  · intro g'
    have hacc := ha.accounted g'
    by_cases hg : g' = g
    · subst hg
      have hzero := hacc.live howns
      have hgone : ¬ Owns ⟨{ h.node.remove k with state := s }, h.trace ++ outs⟩ g' := by
        unfold Owns RelayNode.remove
        simp [hkey]
      refine ⟨hacc.opening, ?_, fun hlive => absurd hlive hgone⟩
      have honce := houts.once
      rw [closes_append]
      change h.closes g' + _ + h.owed g' ≤ 1
      omega
    · refine hacc.mono (le_refl _) ?_ (owns_remove hmap hg).mp
      rw [closes_append, houts.others g' hg]
      rfl

/-- The stages a registration starts with owe nothing, and at most one of them opens. -/
lemma started_tally {before stages : TaskRole → TaskStage} {initiator : Initiator}
    (hs : Started before initiator stages) (hidle : ∀ role, before role = .idle) :
    tally TaskStage.owes stages = 0 ∧ tally TaskStage.opens stages ≤ 1 ∧
      ∀ role, (stages role).reports = false := by
  cases hs with
  | dials =>
    refine ⟨by simp [tally, hidle, TaskStage.owes], by simp [tally, hidle, TaskStage.opens], ?_⟩
    intro role
    cases role <;> simp [hidle, TaskStage.reports]
  | opens service =>
    refine ⟨by simp [tally, hidle, TaskStage.owes], by simp [tally, hidle, TaskStage.opens], ?_⟩
    intro role
    cases role <;> simp [hidle, TaskStage.reports]
  | relays service =>
    refine ⟨by simp [tally, TaskStage.owes], by simp [tally, TaskStage.opens], ?_⟩
    intro role
    cases role <;> simp [TaskStage.reports]

lemma Agrees.register (ha : h.Agrees) {k : SessionKey} {s : RelayState T}
    {stages : TaskRole → TaskStage} (hcounted : s.Counted)
    (hns : k.namespace_ = h.node.namespace_)
    (hs : s.sessions = insert k h.node.state.sessions)
    (hstages : Started (h.node.tasks h.node.generations) k.initiator stages)
    (hmute : Mute outs) :
    Agrees ⟨{ h.node with
      state := s
      map := Function.update h.node.map k (some h.node.generations)
      generations := h.node.generations + 1
      registered := Function.update h.node.registered h.node.generations k
      channels := Function.update h.node.channels h.node.generations ⟨[], false⟩
      tasks := Function.update h.node.tasks h.node.generations stages }, h.trace ++ outs⟩ := by
  have hnew := ha.unused h.node.generations (le_refl _)
  obtain ⟨howes, hopens, hreports⟩ := started_tally hstages hnew.idle
  constructor
  · exact hcounted
  · intro g
    simp only [Function.update_apply]
    split
    · exact hns
    · exact ha.named g
  · intro g hg
    simp only at hg
    obtain ⟨hidle, hnone, hsilent⟩ := ha.unused g (by omega)
    refine ⟨fun role => ?_, fun k' => ?_, ?_⟩
    · simp only [Function.update_of_ne (show g ≠ h.node.generations by omega)]
      exact hidle role
    · simp only [Function.update_apply]
      split
      · intro heq
        have := Option.some.inj heq
        omega
      · exact hnone k'
    · rw [closes_mute hmute, hsilent]
  · intro k' g hmap
    simp only [Function.update_apply] at hmap ⊢
    by_cases hk : k' = k
    · rw [if_pos hk] at hmap
      rw [if_pos (Option.some.inj hmap).symm, hk]
    · rw [if_neg hk] at hmap
      have hne : g ≠ h.node.generations := by
        rintro rfl
        exact hnew.vacant k' hmap
      rw [if_neg hne]
      exact ha.owner k' g hmap
  · intro k' hmap
    simp only [hs, Function.update_apply] at hmap ⊢
    split at hmap
    · rename_i hk
      exact Finset.mem_insert.mpr (Or.inl hk)
    · exact Finset.mem_insert_of_mem (ha.live k' hmap)
  · intro k' hk' hmap
    simp only [hs, Function.update_apply] at hk' hmap
    split at hmap
    · cases hmap
    · rename_i hk
      obtain ⟨g, role, hregistered, hstage⟩ := ha.pending k'
        (Finset.mem_of_mem_insert_of_ne hk' hk) hmap
      have hne : g ≠ h.node.generations := by
        rintro rfl
        rw [hnew.idle role] at hstage
        cases hstage
      exact ⟨g, role, by simp only [Function.update_of_ne hne]; exact hregistered,
        by simp only [Function.update_of_ne hne]; exact hstage⟩
  · intro g
    by_cases hg : g = h.node.generations
    · subst hg
      have hsum : closes ⟨{ h.node with
          state := s
          map := Function.update h.node.map k (some h.node.generations)
          generations := h.node.generations + 1
          registered := Function.update h.node.registered h.node.generations k
          channels := Function.update h.node.channels h.node.generations ⟨[], false⟩
          tasks := Function.update h.node.tasks h.node.generations stages }, h.trace ++ outs⟩
          h.node.generations = 0 := by
        rw [closes_mute hmute]
        exact hnew.silent
      refine ⟨?_, ?_, fun _ => ?_⟩
      · simp only [opening, Function.update_self]
        exact hopens
      · rw [hsum]
        simp only [owed, Function.update_self, howes]
        omega
      · rw [hsum]
        simp only [owed, Function.update_self, howes]
    · refine (ha.accounted g).mono ?_ ?_ ?_
      · simp only [opening, Function.update_of_ne hg]
        exact le_refl _
      · rw [closes_mute hmute]
        simp only [owed, Function.update_of_ne hg]
      · unfold Owns
        simp only [Function.update_of_ne hg]
        intro hlive
        rw [Function.update_apply] at hlive
        split at hlive
        · exact absurd (Option.some.inj hlive).symm hg
        · exact hlive

lemma mute_nil : Mute [] := fun _ => rfl

lemma mute_one {o : Output} (hcloses : ∀ g, o.closes g = false) : Mute [o] := by
  intro g
  simp [hcloses]

/-- **A turn of the reducer keeps the agreement.** -/
lemma Agrees.turned (ha : h.Agrees) {k : SessionKey} {item? : Option Outbound}
    (hns : k.namespace_ = h.node.namespace_) {mints : Prop} (ht : Turned h.node k item? mints n outs) :
    Agrees ⟨n, h.trace ++ outs⟩ := by
  cases ht with
  | idle hr hs houts =>
    refine ha.reduce _ hr.counted (fun k' hmap => hs ▸ ha.live k' hmap) (fun k' hk' _ => hs ▸ hk') ?_
    rcases houts with rfl | rfl
    · exact mute_nil
    · exact mute_one fun _ => rfl
  | opened hr hk hs hvacant hstages hside =>
    refine ha.register hr.counted hns hs hstages ?_
    rcases hside with ⟨-, -, -, -, rfl⟩ | ⟨-, rfl⟩
    · exact mute_nil
    · exact mute_one fun _ => rfl
  | present hr hk hs hmap => exact absurd (ha.live k (by rw [hmap]; simp)) hk
  | forgotten hr hs hmap =>
    refine ha.reduce _ hr.counted (fun k' hmap' => ?_) (fun k' hk' _ => ?_) mute_nil
    · rw [hs, Finset.mem_erase]
      exact ⟨fun heq => hmap' (heq ▸ hmap), ha.live k' hmap'⟩
    · rw [hs] at hk'
      exact Finset.mem_of_mem_erase hk'
  | queued hc hk hmap hitem =>
    exact ha.reduce _ hc ha.live (fun _ hk' _ => hk') (mute_one fun _ => rfl)
  | aborted hr hk hs hmap houts =>
    refine ha.remove hr.counted hs hmap ?_
    rcases houts with rfl | rfl
    · exact ⟨fun _ _ => rfl, Nat.zero_le _⟩
    · refine ⟨fun g' hg' => ?_, List.countP_le_length⟩
      simp [Output.closes, hg'.symm]
  | closed hr hk hs hmap =>
    exact ha.remove hr.counted hs hmap ⟨fun _ _ => rfl, Nat.zero_le _⟩

/-! ### A step of a task -/

variable {role : TaskRole} {stage : TaskStage}

lemma tally_setStage (weight : TaskStage → ℕ) :
    tally weight ((h.node.setStage g role stage).tasks g) + weight (h.node.tasks g role) =
      tally weight (h.node.tasks g) + weight stage := by
  simp only [RelayNode.setStage, Function.update_self]
  exact tally_update weight _ role stage

/-- A task that moves, when it leaves no report behind and its own generation's account holds. -/
lemma Agrees.move (ha : h.Agrees) (channels : ℕ → Channel) (hused : h.node.tasks g role ≠ .idle)
    (hreports : (h.node.tasks g role).reports = true →
      h.node.registered g ∉ h.node.state.sessions)
    (hothers : ∀ g', g' ≠ g → outs.countP (Output.closes g') = 0)
    (hacc : Accounted ⟨{ h.node.setStage g role stage with channels := channels },
      h.trace ++ outs⟩ g) :
    Agrees ⟨{ h.node.setStage g role stage with channels := channels }, h.trace ++ outs⟩ := by
  have hlt : g < h.node.generations := by
    by_contra hge
    exact hused ((ha.unused g (not_lt.mp hge)).idle role)
  constructor
  · exact ha.counted
  · exact ha.named
  · intro g' hg'
    change h.node.generations ≤ g' at hg'
    have hne : g' ≠ g := by omega
    obtain ⟨hidle, hvacant, hsilent⟩ := ha.unused g' hg'
    refine ⟨fun role' => ?_, hvacant, ?_⟩
    · simp only [RelayNode.setStage, Function.update_of_ne hne]
      exact hidle role'
    · rw [closes_append, hsilent, hothers g' hne]
  · exact ha.owner
  · exact ha.live
  · intro k hk hmap
    obtain ⟨g', role', hregistered, hstage⟩ := ha.pending k hk hmap
    refine ⟨g', role', hregistered, ?_⟩
    by_cases hg : g' = g
    · subst hg
      by_cases hrole : role' = role
      · subst hrole
        exact absurd (hregistered ▸ hk) (hreports hstage)
      · simp only [RelayNode.setStage, Function.update_self, Function.update_of_ne hrole]
        exact hstage
    · simp only [RelayNode.setStage, Function.update_of_ne hg]
      exact hstage
  · intro g'
    by_cases hg : g' = g
    · subst hg
      exact hacc
    · refine (ha.accounted g').mono ?_ ?_ id
      · simp only [opening, RelayNode.setStage, Function.update_of_ne hg]
        exact le_refl _
      · rw [closes_append, hothers g' hg]
        simp only [owed, RelayNode.setStage, Function.update_of_ne hg]
        rfl

lemma Agrees.release (ha : h.Agrees) {notify : Bool} (howes : (h.node.tasks g role).owes = 0)
    (hmap : h.node.map (h.node.registered g) = some g) :
    Agrees ⟨(h.node.remove (h.node.registered g)).setStage g role (.untracking notify),
      h.trace⟩ := by
  have hacc := ha.accounted g
  have hlt : g < h.node.generations := by
    by_contra hge
    exact (ha.unused g (not_lt.mp hge)).vacant _ hmap
  constructor
  · exact ha.counted
  · exact ha.named
  · intro g' hg'
    change h.node.generations ≤ g' at hg'
    have hne : g' ≠ g := by omega
    obtain ⟨hidle, hvacant, hsilent⟩ := ha.unused g' hg'
    refine ⟨fun role' => ?_, fun k => ?_, hsilent⟩
    · simp only [RelayNode.setStage, RelayNode.remove, Function.update_of_ne hne]
      exact hidle role'
    · simp only [RelayNode.setStage, RelayNode.remove, Function.update_apply]
      split
      · simp
      · exact hvacant k
  · intro k g' hmap'
    simp only [RelayNode.setStage, RelayNode.remove, Function.update_apply] at hmap'
    split at hmap'
    · cases hmap'
    · exact ha.owner k g' hmap'
  · intro k hmap'
    simp only [RelayNode.setStage, RelayNode.remove, Function.update_apply] at hmap'
    split at hmap'
    · exact absurd rfl hmap'
    · exact ha.live k hmap'
  · intro k hk hmap'
    by_cases hkey : h.node.registered g = k
    · refine ⟨g, role, hkey, ?_⟩
      simp only [RelayNode.setStage, RelayNode.remove, Function.update_self]
      rfl
    · simp only [RelayNode.setStage, RelayNode.remove,
        Function.update_of_ne (Ne.symm hkey)] at hmap'
      obtain ⟨g', role', hregistered, hstage⟩ := ha.pending k hk hmap'
      have hne : g' ≠ g := by
        rintro rfl
        exact hkey hregistered
      refine ⟨g', role', hregistered, ?_⟩
      simp only [RelayNode.setStage, RelayNode.remove, Function.update_of_ne hne]
      exact hstage
  · intro g'
    by_cases hg : g' = g
    · subst hg
      have hzero := hacc.live hmap
      have hopening := hacc.opening
      have howed := @tally_setStage T h g' role (.untracking notify) TaskStage.owes
      have hopens := @tally_setStage T h g' role (.untracking notify) TaskStage.opens
      have hone : (TaskStage.untracking notify).owes ≤ 1 := by cases notify <;> decide
      have hnone : (TaskStage.untracking notify).opens = 0 := rfl
      have hgone : ¬ Owns ⟨(h.node.remove (h.node.registered g')).setStage g' role
          (.untracking notify), h.trace⟩ g' := by
        unfold Owns RelayNode.setStage RelayNode.remove
        simp
      refine ⟨?_, ?_, fun hlive => absurd hlive hgone⟩
      · change tally _ ((h.node.setStage g' role (.untracking notify)).tasks g') ≤ 1
        unfold opening at hopening
        omega
      · change h.closes g' + tally _ ((h.node.setStage g' role (.untracking notify)).tasks g') ≤ 1
        unfold owed at hzero
        omega
    · refine (ha.accounted g').mono ?_ ?_ ?_
      · simp only [opening, RelayNode.setStage, RelayNode.remove, Function.update_of_ne hg]
        exact le_refl _
      · simp only [owed, RelayNode.setStage, RelayNode.remove, Function.update_of_ne hg]
        rfl
      · intro hlive
        unfold Owns RelayNode.setStage RelayNode.remove at hlive
        simp only [Function.update_apply] at hlive
        split at hlive
        · cases hlive
        · exact hlive

/-- The account of a generation one of whose tasks moves, from what the move adds to what it sent
and owes, and to what it opens. -/
lemma Accounted.move (ha : h.Accounted g) {channels : ℕ → Channel}
    (hsent : outs.countP (Output.closes g) + stage.owes ≤ (h.node.tasks g role).owes)
    (hopens : stage.opens ≤ (h.node.tasks g role).opens) :
    Accounted ⟨{ h.node.setStage g role stage with channels := channels }, h.trace ++ outs⟩ g := by
  have howed := @tally_setStage T h g role stage TaskStage.owes
  have hopened := @tally_setStage T h g role stage TaskStage.opens
  obtain ⟨hopening, honce, hlive⟩ := ha
  unfold RelayHistory.opening at hopening
  unfold owed at honce hlive
  constructor
  · change tally _ ((h.node.setStage g role stage).tasks g) ≤ 1
    omega
  · rw [closes_append]
    change h.closes g + _ + tally _ ((h.node.setStage g role stage).tasks g) ≤ 1
    omega
  · intro howns
    have := hlive howns
    rw [closes_append]
    change h.closes g + _ + tally _ ((h.node.setStage g role stage).tasks g) = 0
    omega

/-- The account of a generation whose `Open` outlived its session, when no `Close` of it was sent
or is owed. -/
lemma Accounted.gone (ha : h.Accounted g) {service : String}
    (hstage : h.node.tasks g role = .opening service true) (hgone : ¬ h.Owns g)
    (hzero : h.closes g + h.owed g = 0) :
    Accounted ⟨h.node.setStage g role .notifying, h.trace⟩ g := by
  have howed := @tally_setStage T h g role .notifying TaskStage.owes
  have hopened := @tally_setStage T h g role .notifying TaskStage.opens
  rw [hstage] at howed hopened
  simp only [TaskStage.owes, TaskStage.opens] at howed hopened
  have hopening := ha.opening
  unfold RelayHistory.opening at hopening
  unfold owed at hzero
  constructor
  · change tally _ ((h.node.setStage g role .notifying).tasks g) ≤ 1
    omega
  · change h.closes g + tally _ ((h.node.setStage g role .notifying).tasks g) ≤ 1
    omega
  · exact fun hlive => absurd hlive hgone

lemma closes_sendFrame (n : RelayNode T) (g g' : ℕ) (f : Frame) :
    [n.sendFrame g f].countP (Output.closes g') = if g = g' ∧ f.isClose = true then 1 else 0 := by
  simp [RelayNode.sendFrame, Output.closes, List.countP_cons]

/-- **A step of a task keeps the agreement**, when the step is clear. -/
lemma Agrees.worked (ha : h.Agrees) {act : TaskAct} (hclear : h.Clear (.work g role act))
    (hw : Worked h.node g role act n outs) : Agrees ⟨n, h.trace ++ outs⟩ := by
  cases hw with
  | quiet =>
    rw [List.append_nil]
    exact ha
  | moved hused howes hopens hreports houts =>
    have hmute : Mute outs := by
      rcases houts with rfl | ⟨f, rfl, hf, -⟩
      · exact mute_nil
      · intro g'
        rw [closes_sendFrame, hf]
        simp
    refine ha.move _ hused.1 (fun hc => by rw [hreports.1] at hc; cases hc)
      (fun g' _ => hmute g') ((ha.accounted g).move ?_ hopens)
    rw [hmute g, howes.2]
    exact Nat.zero_le _
  | released hused howes hreports hmap =>
    rw [List.append_nil]
    exact ha.release howes hmap
  | gone hact hstage hmap =>
    subst hact
    refine ha.move h.node.channels (by simp [hstage]) (fun hc => ?_)
      (fun _ _ => rfl) ?_
    · rw [hstage] at hc
      cases hc
    · rw [List.append_nil]
      refine (ha.accounted g).gone hstage (fun hlive => ?_) (hclear _ hstage hmap)
      unfold Owns at hlive
      rw [hmap] at hlive
      cases hlive
  | reported hact hstage hs =>
    subst hact
    rename_i notify s
    have hmap := hclear (by rw [hstage]; rfl)
    obtain ⟨s', hremove, hs', hcounted, -⟩ := RelayState.removeSession_spec ha.counted
      (h.node.registered g)
    rw [hremove] at hs
    subst hs
    -- the reducer forgets the key, and then the task goes on
    have hforgot := ha.reduce h.node.channels hcounted (fun k hk => ?_) (fun k hk _ => ?_) mute_nil
    · rw [List.append_nil] at hforgot
      refine hforgot.move h.node.channels
        (by simp [hstage]) (fun _ => ?_) (fun _ _ => rfl)
        ((hforgot.accounted g).move ?_ ?_)
      · simp [hs']
      · simp only [hstage]
        cases notify <;> simp [TaskStage.owes]
      · cases notify <;> exact Nat.zero_le _
    · rw [hs', Finset.mem_erase]
      exact ⟨fun heq => hk (heq ▸ hmap), ha.live k hk⟩
    · rw [hs'] at hk
      exact Finset.mem_of_mem_erase hk
  | notified hstage =>
    refine ha.move h.node.channels (by simp [hstage]) (fun hc => ?_)
      (fun g' hg' => ?_) ((ha.accounted g).move ?_ (Nat.zero_le _))
    · rw [hstage] at hc
      cases hc
    · rw [closes_sendFrame, if_neg (by simp [hg'.symm])]
    · rw [closes_sendFrame, hstage]
      split <;> decide

/-! ### Runs -/

/-- **One step.** A clear step keeps the agreement. -/
lemma Agrees.step (ha : h.Agrees) (op : NodeOp T) (hclear : h.Clear op) : (h.step op).Agrees := by
  cases op with
  | registerService name target =>
    exact ha.turned (k := ⟨0, h.node.namespace_, 0, .local_⟩) rfl
      (RelayNode.turned_register ha.counted _ name target _)
  | accepted token peer service a =>
    exact ha.turned rfl (RelayNode.turned_accepted ha.counted a token peer service)
  | frame sender f a =>
    cases f with
    | _ => exact ha.turned rfl (RelayNode.turned_frame ha.counted a sender _ rfl)
  | work g role act => exact ha.worked hclear (RelayNode.worked_work (ha.named g) act)
  | otherNamespace =>
    have hle : h.node.generations ≤
        (checkedAdd u64Max h.node.generations 1).getD h.node.generations := by
      unfold checkedAdd
      split
      · exact Nat.le_succ _
      · exact le_refl _
    unfold RelayHistory.step RelayNode.step
    rw [List.append_nil]
    exact {
      counted := ha.counted
      named := ha.named
      unused := fun g hg =>
        have hu := ha.unused g (le_trans hle hg)
        ⟨hu.idle, hu.vacant, hu.silent⟩
      owner := ha.owner
      live := ha.live
      pending := ha.pending
      accounted := fun g => (ha.accounted g).mono (le_refl _) rfl id }

lemma run_concat (h : RelayHistory T) (ops : List (NodeOp T)) (op : NodeOp T) :
    h.run (ops ++ [op]) = (h.run ops).step op := by
  unfold run
  rw [List.foldl_append, List.foldl_cons, List.foldl_nil]

/-- **Every run.** -/
lemma Agrees.run (ha : h.Agrees) (ops : List (NodeOp T)) (hclear : h.ClearRun ops) :
    (h.run ops).Agrees := by
  induction ops using List.reverseRecOn with
  | nil => exact ha
  | append_singleton ops op ih =>
    rw [run_concat]
    refine (ih fun before op' after heq => ?_).step op (hclear ops op [] rfl)
    exact hclear before op' (after ++ [op]) (by rw [heq]; simp)

lemma Agrees.bounded (ha : h.Agrees) (keys : Finset SessionKey)
    (hkeys : ∀ k ∈ keys, h.node.map k ≠ none) : keys.card ≤ maxRelaySessions ∧
      ∀ peer, (keys.filter (·.peer = peer)).card ≤ maxRelaySessionsPerPeer := by
  have hsub : keys ⊆ h.node.state.sessions := fun k hk => ha.live k (hkeys k hk)
  constructor
  · exact (Finset.card_le_card hsub).trans ha.counted.bound
  · intro peer
    exact (Finset.card_le_card (Finset.filter_subset_filter _ hsub)).trans
      (ha.counted.peerBound peer)

lemma turned_length {k : SessionKey} {item? : Option Outbound} {n n' : RelayNode T}
    {mints : Prop} (ht : Turned n k item? mints n' outs) : outs.length ≤ 1 := by
  cases ht with
  | idle hr hs houts => rcases houts with rfl | rfl <;> simp
  | opened hr hk hs hvacant hstages hside =>
    rcases hside with ⟨-, -, -, -, rfl⟩ | ⟨-, rfl⟩ <;> simp
  | aborted hr hk hs hmap houts => rcases houts with rfl | rfl <;> simp
  | _ => simp

lemma worked_length {act : TaskAct} {n n' : RelayNode T} (hw : Worked n g role act n' outs) :
    outs.length ≤ 1 := by
  cases hw with
  | moved hused howes hopens hreports houts => rcases houts with rfl | ⟨f, rfl, -⟩ <;> simp
  | _ => simp

lemma Agrees.step_length (ha : h.Agrees) (op : NodeOp T) : (h.node.step op).2.length ≤ 1 := by
  cases op with
  | registerService name target =>
    exact turned_length (RelayNode.turned_register ha.counted _ name target
      ⟨0, h.node.namespace_, 0, .local_⟩)
  | accepted token peer service a =>
    exact turned_length (RelayNode.turned_accepted ha.counted a token peer service)
  | frame sender f a =>
    cases f with
    | _ => exact turned_length (RelayNode.turned_frame ha.counted a sender _ rfl)
  | work g role act => exact worked_length (RelayNode.worked_work (ha.named g) act)
  | otherNamespace => exact Nat.zero_le _

lemma clearRun_before {before after : List (NodeOp T)} (hclear : h.ClearRun (before ++ after)) :
    h.ClearRun before :=
  fun pre op post heq => hclear pre op (post ++ after) (by rw [heq]; simp)

lemma clearRun_cons {op : NodeOp T} {ops : List (NodeOp T)} (hop : h.Clear op)
    (hops : (h.step op).ClearRun ops) : h.ClearRun (op :: ops) := by
  intro before op' after heq
  cases before with
  | nil =>
    obtain ⟨rfl, -⟩ := List.cons_eq_cons.mp heq
    exact hop
  | cons first before =>
    obtain ⟨rfl, hrest⟩ := List.cons_eq_cons.mp heq
    exact hops before op' after hrest

end RelayHistory

open RelayHistory

/-- **The reducer and its engine agree.** In every run whose reports find no newer session and
whose `Open`s, where they outlive their session, find no `Close` of it sent or owed: a live entry is
in the session set, and the two are equal while no report is due; the quota counts the session
set; so the live entries stay within both bounds; and for each generation at most one `Close` is
sent, as in each single step. -/
theorem sessions_agree (kind : TransportKind) (ns : String) (ops : List (NodeOp T))
    (hclear : (start kind ns).ClearRun ops) :
    let h : RelayHistory T := (start kind ns).run ops
    (∀ k, h.node.map k ≠ none → k ∈ h.node.state.sessions) ∧
    ((∀ g role, (h.node.tasks g role).reports = false) →
      ∀ k, k ∈ h.node.state.sessions ↔ h.node.map k ≠ none) ∧
    (h.node.state.sessionQuota.Counts h.node.state.held ∧
      h.node.state.sessionQuota.total = h.node.state.sessions.card) ∧
    (∀ keys : Finset SessionKey, (∀ k ∈ keys, h.node.map k ≠ none) →
      keys.card ≤ maxRelaySessions ∧
        ∀ peer, (keys.filter (·.peer = peer)).card ≤ maxRelaySessionsPerPeer) ∧
    (∀ g, h.closes g ≤ 1) ∧
    ∀ before op after, ops = before ++ op :: after →
      (((start kind ns).run before).node.step op).2.length ≤ 1 := by
  intro h
  have ha : h.Agrees := (agrees_start kind ns).run ops hclear
  refine ⟨ha.live, fun hquiet k => ⟨fun hk hnone => ?_, ha.live k⟩,
    ⟨ha.counted.perPeer, ha.counted.total⟩, ha.bounded, fun g => ?_, fun before op after heq => ?_⟩
  · obtain ⟨g, role, -, hreports⟩ := ha.pending k hk hnone
    rw [hquiet g role] at hreports
    cases hreports
  · have := (ha.accounted g).once
    omega
  · have hbefore := (agrees_start kind ns).run before (clearRun_before (heq ▸ hclear))
    exact hbefore.step_length op

def endedSession : List (NodeOp Unit) :=
  [.registerService "web" (), .frame 7 (.open_ 0 "web") ⟨true, true, true⟩,
    .work 0 .socket (.dialed true), .work 0 .socket .relayEnds, .work 0 .socket .untracked,
    .work 0 .socket .notified]

theorem sessions_agree_once : ((start .tcp "tcp").run endedSession).closes 0 ≤ 1 := by
  refine (sessions_agree .tcp "tcp" endedSession ?_).2.2.2.2.1 0
  refine clearRun_cons trivial (clearRun_cons trivial (clearRun_cons trivial
    (clearRun_cons trivial (clearRun_cons (fun _ => ?_) (clearRun_cons trivial ?_)))))
  · decide +kernel
  · intro before op after heq
    simp at heq

/-- The session of peer 7 ends here; before that is reported, the peer closes it and opens the
same id again, and the report then forgets the new session. -/
def staleReport : List (NodeOp Unit) :=
  [.registerService "web" (), .frame 7 (.open_ 0 "web") ⟨true, true, true⟩,
    .work 0 .socket (.dialed true), .work 0 .socket .relayEnds,
    .frame 7 (.close 0 true) ⟨true, true, true⟩,
    .frame 7 (.open_ 0 "web") ⟨true, true, true⟩, .work 0 .socket .untracked]

/-- A flow this node opens ends while its `Open` is not admitted yet. -/
def lateOpen : List (NodeOp Unit) :=
  [.accepted 0 7 "dns" ⟨true, true, true⟩, .work 0 .opener .sendOpen, .work 0 .socket .relayEnds,
    .work 0 .socket .untracked, .work 0 .socket .notified, .work 0 .opener (.opened true),
    .work 0 .opener .notified]

theorem sessions_disagree :
    (((start .tcp "tcp").run staleReport).node.map ⟨7, "tcp", 0, .remote⟩ = some 1 ∧
      ⟨7, "tcp", 0, .remote⟩ ∉ ((start .tcp "tcp").run staleReport).node.state.sessions) ∧
    ((start .udp "udp").run lateOpen).closes 0 = 2 := by
  refine ⟨⟨?_, ?_⟩, ?_⟩ <;> decide +kernel

end Rings.Transport
