import Rings.Delivery

/-!
Delivery never cycles, in any views.

The measure of a node is the number of nodes nearer the aim. A forward step lowers it, the one
handoff resets it to at most `|V| - 2`, and a direct link ends the run. So a marked route takes
at most one hop more than the measure of its node, and an unmarked one at most `|V|` more.
-/

namespace Rings

/-! ### The measure -/

section Measure

variable {V : Finset Did} {T aim n p : Did}

/-- The nodes other than the destination that are nearer the aim than `n`. -/
def nearer (V : Finset Did) (T aim n : Did) : ℕ :=
  ((V.erase T).filter fun v => dist v aim < dist n aim).card

lemma nearer_lt (hp : p ∈ V) (hT : p ≠ T) (h : dist p aim < dist n aim) :
    nearer V T aim p < nearer V T aim n := by
  refine Finset.card_lt_card (Finset.ssubset_iff_subset_ne.mpr ⟨?_, fun he => ?_⟩)
  · intro v hv
    rw [Finset.mem_filter] at hv ⊢
    exact ⟨hv.1, by omega⟩
  · have hmem : p ∈ (V.erase T).filter fun v => dist v aim < dist n aim :=
      Finset.mem_filter.mpr ⟨Finset.mem_erase.mpr ⟨hT, hp⟩, h⟩
    rw [← he, Finset.mem_filter] at hmem
    omega

lemma nearer_le (aim n : Did) (hT : T ∈ V) : nearer V T aim n + 1 ≤ V.card := by
  have h : nearer V T aim n ≤ (V.erase T).card := Finset.card_filter_le _ _
  have h1 := Finset.card_erase_add_one hT
  omega

lemma nearer_add_two_le (aim : Did) (hT : T ∈ V) (hp : p ∈ V) (hne : p ≠ T) :
    nearer V T aim p + 2 ≤ V.card := by
  have hpT : p ∈ V.erase T := Finset.mem_erase.mpr ⟨hne, hp⟩
  have h : nearer V T aim p < (V.erase T).card := by
    refine Finset.card_lt_card (Finset.filter_ssubset.mpr ⟨p, hpT, ?_⟩)
    omega
  have h1 := Finset.card_erase_add_one hT
  omega

end Measure

/-! ### Length -/

section Bound

variable {V : Finset Did} {T : Did} {view : ℕ → Did → TopologyState}
  {linked : ℕ → Did → Did → Bool}

def viaHops (T : Did) (stage : RouteStage) : ℕ := if stage.aim T = T then 0 else 1

lemma route_at_aim (hview : ∀ i n, (view i n).localDid = n) (fuel i : ℕ) {stage : RouteStage}
    (h : stage.aim T ≠ T) :
    (route view linked T fuel i (stage.aim T) stage).length ≤ 1 := by
  cases fuel with
  | zero => exact Nat.zero_le _
  | succ fuel =>
    rw [route]
    split
    · exact Nat.zero_le _
    · rename_i hop hhop
      rcases deliveryStep_cases hhop with ⟨rfl, -⟩ | ⟨-, hne, -⟩
      · simp
      · rw [hview] at hne
        exact absurd rfl (hne h)

lemma forward_closer {s : TopologyState} {linked : Did → Bool} {aim p : Did}
    (h : routeToward s aim linked = .forward p) : dist p aim < dist s.localDid aim := by
  obtain ⟨-, hne, hle, -⟩ := routeToward_forward h
  exact dist_lt_of_step hne hle

/-- A route from a node of `V` is bounded by the measure of the node. -/
lemma route_length_le (hT : T ∈ V) (hview : ∀ i n, (view i n).localDid = n)
    (hnames : ∀ i, ∀ n ∈ V, ∀ p, Names (view i n) p → p ∈ V) (fuel i : ℕ) {n : Did} (hn : n ∈ V)
    (stage : RouteStage) :
    (route view linked T fuel i n stage).length ≤
      nearer V T (stage.aim T) n + (if stage.handedOff then 1 else V.card) + viaHops T stage := by
  have hV : 1 ≤ V.card := Finset.card_pos.mpr ⟨T, hT⟩
  induction fuel generalizing i n stage with
  | zero => exact Nat.zero_le _
  | succ fuel ih =>
    rw [route]
    split
    · exact Nat.zero_le _
    rename_i hop hhop
    rw [List.length_cons]
    by_cases hpT : hop.peer = T
    · rw [if_pos hpT]
      have : 1 ≤ if stage.handedOff then 1 else V.card := by split <;> omega
      simp only [List.length_nil]
      omega
    rw [if_neg hpT]
    rcases deliveryStep_cases hhop with ⟨rfl, -⟩ | ⟨-, -, hcase⟩
    · exact absurd rfl hpT
    rcases hcase with ⟨hvia, rfl⟩ | ⟨p, hp, rfl⟩ | ⟨p, hp, hoff, rfl⟩
    · -- over a link to the aim, which has one hop left
      have h1 := @route_at_aim T view linked hview fuel (i + 1) stage hvia
      have h2 : viaHops T stage = 1 := if_neg hvia
      have h3 : 1 ≤ if stage.handedOff then 1 else V.card := by split <;> omega
      dsimp only at h1 ⊢
      omega
    · have hmem := hnames i n hn p (routeToward_forward hp).1
      have hlt := forward_closer hp
      rw [hview] at hlt
      have h1 := ih (i + 1) hmem stage
      have h2 := nearer_lt (n := n) hmem hpT hlt
      dsimp only at h1 ⊢
      omega
    · have hmem := hnames i n hn p (routeToward_handoff hp).1
      have h1 := ih (i + 1) hmem stage.handOff
      have h2 := nearer_add_two_le (stage.aim T) hT hmem hpT
      have haim : stage.handOff.aim T = stage.aim T := rfl
      have hvia : viaHops T stage.handOff = viaHops T stage := rfl
      rw [haim, hvia] at h1
      simp only [RouteStage.handOff, if_true] at h1
      simp only [hoff, Bool.false_eq_true, if_false, RouteStage.handOff]
      omega

end Bound

/-! ### The handoff flag and the crossing -/

section Crossing

variable {T : Did} {view : ℕ → Did → TopologyState} {linked : ℕ → Did → Did → Bool}

lemma deliveryStep_flag {s : TopologyState} {stage : RouteStage} {links : Did → Bool}
    {hop : NextHop} (h : deliveryStep s T stage links = some hop) (hoff : stage.handedOff = true) :
    hop.stage.handedOff = true := by
  rcases deliveryStep_cases h with ⟨rfl, -⟩ | ⟨-, -, ⟨-, rfl⟩ | ⟨p, -, rfl⟩ | ⟨p, -, -, rfl⟩⟩
  · exact hoff
  · exact hoff
  · exact hoff
  · rfl

lemma deliveryStep_passes {s : TopologyState} {stage : RouteStage} {links : Did → Bool}
    {hop : NextHop} (h : deliveryStep s T stage links = some hop)
    (hpass : (Hop.mk s.localDid stage hop).passesAim T = true) :
    stage.handedOff = false ∧ hop.stage.handedOff = true := by
  simp only [Hop.passesAim, Bool.and_eq_true, decide_eq_true_eq] at hpass
  rcases deliveryStep_cases h with ⟨rfl, -⟩ | ⟨-, -, ⟨-, rfl⟩ | ⟨p, hp, rfl⟩ | ⟨p, -, hoff, rfl⟩⟩
  · exact absurd rfl hpass.1
  · exact absurd hpass.2 (lt_irrefl _)
  · have := (routeToward_forward hp).2.2.1
    have := hpass.2
    dsimp only at this
    omega
  · exact ⟨hoff, rfl⟩

lemma route_flag_of_marked (fuel i : ℕ) (n : Did) (stage : RouteStage)
    (hoff : stage.handedOff = true) :
    ∀ h ∈ route view linked T fuel i n stage, h.next.stage.handedOff = true := by
  induction fuel generalizing i n stage with
  | zero => exact fun h hh => by cases hh
  | succ fuel ih =>
    rw [route]
    split
    · exact fun h hh => by cases hh
    rename_i hop hhop
    have hflag := deliveryStep_flag hhop hoff
    intro h hh
    rcases List.mem_cons.mp hh with rfl | hh
    · exact hflag
    · split at hh
      · cases hh
      · exact ih _ _ _ hflag h hh

lemma route_flag (fuel i : ℕ) (n : Did) (stage : RouteStage) :
    (route view linked T fuel i n stage).Pairwise fun a b =>
      a.next.stage.handedOff = true → b.next.stage.handedOff = true := by
  induction fuel generalizing i n stage with
  | zero => exact List.Pairwise.nil
  | succ fuel ih =>
    rw [route]
    split
    · exact List.Pairwise.nil
    rename_i hop hhop
    refine List.Pairwise.cons ?_ ?_
    · intro b hb hoff
      split at hb
      · cases hb
      · exact route_flag_of_marked _ _ _ _ hoff b hb
    · split
      · exact List.Pairwise.nil
      · exact ih _ _ _

/-- At most one hop passes its aim, and none once the stage is marked. -/
lemma route_passes_le (hview : ∀ i n, (view i n).localDid = n) (fuel i : ℕ) (n : Did)
    (stage : RouteStage) :
    (route view linked T fuel i n stage).countP (·.passesAim T) ≤
      if stage.handedOff then 0 else 1 := by
  induction fuel generalizing i n stage with
  | zero => exact Nat.zero_le _
  | succ fuel ih =>
    rw [route]
    split
    · exact Nat.zero_le _
    rename_i hop hhop
    rw [List.countP_cons]
    have hrest : List.countP (·.passesAim T)
        (if hop.peer = T then [] else route view linked T fuel (i + 1) hop.peer hop.stage) ≤
        if hop.stage.handedOff then 0 else 1 := by
      split
      · exact Nat.zero_le _
      · exact ih _ _ _
    by_cases hpass : (Hop.mk n stage hop).passesAim T = true
    · have hl := hview i n
      obtain ⟨h1, h2⟩ := deliveryStep_passes hhop (by rw [hl]; exact hpass)
      rw [if_pos h2] at hrest
      rw [if_pos hpass, h1]
      exact Nat.add_le_add_right hrest 1
    · rw [if_neg hpass]
      refine le_trans hrest ?_
      rcases hs : stage.handedOff
      · split <;> simp
      · rw [deliveryStep_flag hhop hs]

end Crossing

/-- **Delivery never cycles.** Whatever the views and links of each hop are, a route from a
node of `V` to a node of `V` takes at most `2|V|` hops, or `2|V| - 1` when no via is named;
the handoff flag is never cleared, and at most one hop passes its aim. -/
theorem delivery_never_cycles (V : Finset Did) (view : ℕ → Did → TopologyState)
    (linked : ℕ → Did → Did → Bool) (hview : ∀ i n, (view i n).localDid = n)
    (hnames : ∀ i, ∀ n ∈ V, ∀ p, Names (view i n) p → p ∈ V) (n T : Did) (hn : n ∈ V) (hT : T ∈ V)
    (via : Option Did) (fuel : ℕ) :
    let hops := route view linked T fuel 0 n (.replyingVia via)
    hops.length ≤ 2 * V.card ∧ (via = none → hops.length ≤ 2 * V.card - 1) ∧
      hops.Pairwise (fun a b => a.next.stage.handedOff = true → b.next.stage.handedOff = true) ∧
      hops.countP (·.passesAim T) ≤ 1 := by
  intro hops
  have hlen : hops.length ≤ nearer V T ((RouteStage.replyingVia via).aim T) n + V.card +
      viaHops T (.replyingVia via) := route_length_le hT hview hnames fuel 0 hn _
  have hnear := nearer_le ((RouteStage.replyingVia via).aim T) n hT
  have hvia : viaHops T (.replyingVia via) ≤ 1 := by
    unfold viaHops
    split <;> omega
  refine ⟨by omega, ?_, route_flag fuel 0 n _, route_passes_le hview fuel 0 n _⟩
  rintro rfl
  have h0 : viaHops T (.replyingVia none) = 0 := if_pos rfl
  rw [h0] at hlen
  omega

/-- A sender whose only link lies past the destination: one handoff, then a direct link. -/
theorem delivery_never_cycles_handoff :
    let view : ℕ → Did → TopologyState := fun _ n => .new n [9, n] none [none, some 1]
    let linked : ℕ → Did → Did → Bool := fun _ n p => (n, p) = (1, 9) ∨ (n, p) = (9, 5)
    let hops := route view linked 5 10 0 1 (.replyingVia none)
    hops.map (·.next.peer) = [9, 5] ∧ hops.length ≤ 2 * ({1, 5, 9} : Finset Did).card - 1 ∧
      hops.countP (·.passesAim 5) ≤ 1 := by
  intro view linked hops
  have hnames : ∀ i, ∀ n ∈ ({1, 5, 9} : Finset Did), ∀ p, Names (view i n) p →
      p ∈ ({1, 5, 9} : Finset Did) := by
    intro i n hn p hp
    simp only [Names, view, TopologyState.new, List.mem_cons, List.not_mem_nil, or_false,
      Option.some.injEq, reduceCtorEq, false_or] at hp
    rcases hp with (rfl | rfl) | rfl
    · decide
    · exact hn
    · decide
  have h := delivery_never_cycles {1, 5, 9} view linked (fun _ _ => rfl) hnames 1 5 (by decide)
    (by decide) none 10
  exact ⟨by decide, h.2.1 rfl, h.2.2.2⟩

end Rings
