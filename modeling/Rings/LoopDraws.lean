import Rings.LoopSelection

/-!
The draws of a loop: each is weighted by quality among the candidates that leave a matching of the
positions still pending, so that no draw is empty and no hop is drawn twice.
-/

namespace Rings.OnionRoute

open Matching

/-! ### Matchings of the pending positions -/

structure PendingPositions (relays : RelayRegistrants) (X : Type) where
  symbols : List (SymbolRegistrants relays X)
  guard : Option (List Did)

namespace PendingPositions

variable {relays : RelayRegistrants} {X : Type}

def new (symbols : List (SymbolRegistrants relays X)) (guard : List Did) :
    PendingPositions relays X := ⟨symbols, some guard⟩

def ofSymbols (symbols : List (SymbolRegistrants relays X)) : PendingPositions relays X :=
  ⟨symbols, none⟩

variable (pending : PendingPositions relays X)

def len : ℕ := pending.symbols.length + if pending.guard.isSome then 1 else 0

/-- The candidates of position `index`: a symbol, or the guard after the symbols. -/
def get (index : ℕ) : Option (List Did) :=
  match pending.symbols[index]? with
  | some registrants => some registrants.dids
  | none => pending.guard.filter fun _ => index = pending.symbols.length

def families : List (List Did) := pending.symbols.map (·.dids) ++ pending.guard.toList

end PendingPositions

section Matchings

variable {relays : RelayRegistrants} {X : Type}

/-- Extend the matching to cover `position`; a search tries each candidate once. -/
def augmentMatching (pending : PendingPositions relays X) (excluded : Did → Bool) :
    ℕ → Search Did → Bool × Search Did :=
  augment (fun index => (pending.get index).getD []) excluded (pending.families.flatten.length + 1)

def admitsDistinctHops (pending : PendingPositions relays X) (excluded : Did → Bool) : Bool :=
  matchAll (augmentMatching pending excluded) (List.range pending.len) fun _ => none

theorem length_families (pending : PendingPositions relays X) :
    pending.families.length = pending.len := by
  cases h : pending.guard <;> simp [PendingPositions.families, PendingPositions.len, h]

theorem get_getD (pending : PendingPositions relays X) (index : ℕ) :
    (pending.get index).getD [] = pending.families.getD index [] := by
  obtain ⟨symbols, guard⟩ := pending
  simp only [PendingPositions.get, PendingPositions.families, List.getD_eq_getElem?_getD]
  by_cases hlt : index < symbols.length
  · simp [List.getElem?_append_left, hlt]
  · rw [List.getElem?_append_right (by simpa using hlt), List.getElem?_eq_none (not_lt.1 hlt)]
    cases guard with
    | none => simp
    | some guard =>
      by_cases heq : index = symbols.length
      · simp [heq, Option.filter]
      · obtain ⟨k, rfl⟩ : ∃ k, index = symbols.length + (k + 1) :=
          ⟨index - symbols.length - 1, by omega⟩
        simp

theorem admitsDistinctHops_eq_true (pending : PendingPositions relays X) (excluded : Did → Bool) :
    admitsDistinctHops pending excluded = true ↔
      HasRepresentatives pending.families (fun did => excluded did) := by
  have hget : (fun index => (pending.get index).getD []) = (pending.families.getD · []) :=
    funext (get_getD pending)
  rw [admitsDistinctHops, augmentMatching, hget, ← length_families]
  exact matchAll_iff pending.families (Nat.lt_succ_self _)

end Matchings

/-! ### Weighted draws -/

def qualityWeight : Option PeerQuality → ℕ
  | some .healthy => 8
  | some .unknown | none => 4
  | some .degraded => 1

section Draws

variable {E T : Type} [RouteEntropy E] (quality : Did → Option PeerQuality)

def pickAt : ℕ → ℕ → List Did → Option ℕ
  | _, _, [] => none
  | roll, index, did :: dids =>
    let weight := qualityWeight (quality did)
    if roll < weight then some index else pickAt (roll - weight) (index + 1) dids

/-- Pick an index with probability proportional to its weight; a `Vec` of DIDs is too short for the
`u64` sum of the weights to overflow. -/
def pickWeightedIndex (dids : List Did) (entropy : E) : Option ℕ × E :=
  let totalWeight := (dids.map fun did => qualityWeight (quality did)).sum
  if totalWeight = 0 then (none, entropy)
  else
    let drawn := RouteEntropy.nextU64 entropy
    (pickAt quality (drawn.1 % totalWeight) 0 dids, drawn.2)

def drawWeighted (candidates : List T) (didOf : T → Did) (entropy : E) : Option T × E :=
  let picked := pickWeightedIndex quality (candidates.map didOf) entropy
  (picked.1.bind fun index => candidates[index]?, picked.2)

theorem qualityWeight_pos (q : Option PeerQuality) : 0 < qualityWeight q := by
  rcases q with _ | _ | _ | _ <;> decide

theorem pickAt_isSome (dids : List Did) (roll index : ℕ)
    (h : roll < (dids.map fun did => qualityWeight (quality did)).sum) :
    ∃ i, pickAt quality roll index dids = some i ∧ index ≤ i ∧ i < index + dids.length := by
  induction dids generalizing roll index with
  | nil => simp at h
  | cons did dids ih =>
    simp only [pickAt, List.map_cons, List.sum_cons] at h ⊢
    split
    · exact ⟨index, rfl, le_rfl, by simp⟩
    · obtain ⟨i, hi, hle, hlt⟩ := ih (roll - qualityWeight (quality did)) (index + 1) (by omega)
      refine ⟨i, hi, by omega, ?_⟩
      rw [List.length_cons]
      omega

/-- A draw fails only where there is no candidate. -/
theorem drawWeighted_of_ne_nil {candidates : List T} (h : candidates ≠ []) (didOf : T → Did)
    (entropy : E) : ∃ c ∈ candidates, ∃ entropy',
      drawWeighted quality candidates didOf entropy = (some c, entropy') := by
  have hpos : 0 < ((candidates.map didOf).map fun did => qualityWeight (quality did)).sum := by
    obtain ⟨c, rest, rfl⟩ := List.exists_cons_of_ne_nil h
    simp only [List.map_cons, List.sum_cons]
    exact Nat.add_pos_left (qualityWeight_pos _) _
  obtain ⟨i, hi, -, hlt⟩ := pickAt_isSome quality (candidates.map didOf) _ 0
    (Nat.mod_lt (RouteEntropy.nextU64 entropy).1 hpos)
  simp only [Nat.zero_add, List.length_map] at hlt
  refine ⟨candidates[i], List.getElem_mem hlt, (RouteEntropy.nextU64 entropy).2, ?_⟩
  simp only [drawWeighted, pickWeightedIndex, hpos.ne', if_false, hi, Option.bind_some,
    List.getElem?_eq_getElem hlt]

end Draws

/-! ### The loop -/

structure LoopDraw (E : Type) where
  taken : Finset Did
  entropy : E

section Select

variable {E T X : Type} [RouteEntropy E] {relays : RelayRegistrants}

/-- Draw one of the candidates and take its DID. -/
def drawHop (quality : Did → Option PeerQuality) (didOf : T → Did)
    (candidates : Finset Did → List T) : Effect (LoopDraw E) OnionRouteError T := do
  let s ← get
  match drawWeighted quality (candidates s.taken) didOf s.entropy with
  | (none, _) => throw .loopDrawInvariant
  | (some drawn, entropy) =>
    set ({ taken := insert (didOf drawn) s.taken, entropy := entropy } : LoopDraw E)
    return drawn

/-- The relay registrants that may be the guard. -/
def permittedGuards (relays : RelayRegistrants) (guardPermitted : Did → Bool) :
    List OnionRouteHop := relays.hops.filter fun hop => guardPermitted hop.did

/-- Draw a registrant that leaves a matching of the symbols after it and the guard. -/
def drawSymbol (quality : Did → Option PeerQuality) (guards : List Did)
    (registrants : SymbolRegistrants relays X) (later : List (SymbolRegistrants relays X)) :
    Effect (LoopDraw E) OnionRouteError (OnionRouteHop × X) :=
  let pending := PendingPositions.new later guards
  drawHop quality (fun drawn => drawn.1.did) fun taken =>
    registrants.registrations.filter fun (hop, _) => hop.did ∉ taken &&
      admitsDistinctHops pending fun did => did = hop.did || did ∈ taken

def drawRelay (relays : RelayRegistrants) (quality : Did → Option PeerQuality) :
    Effect (LoopDraw E) OnionRouteError OnionRouteHop :=
  drawHop quality (·.did) fun taken => relays.hops.filter (·.did ∉ taken)

/-- The draws of a loop: the symbols, the guard, then the relays. -/
def drawLoop (symbols : OnionPipelineSymbols (SymbolRegistrants relays X))
    (quality : Did → Option PeerQuality) (guards : List OnionRouteHop) :
    Effect (LoopDraw E) OnionRouteError (OnionLoop OnionRouteHop (OnionRouteHop × X)) := do
  let (intermediate, terminal) ←
    symbols.tryMapWithLater (drawSymbol quality (guards.map (·.did)))
  let guard ← drawHop quality (·.did) fun taken => guards.filter (·.did ∉ taken)
  OnionLoop.tryUnfold intermediate terminal fun
    | .guard => pure guard
    | .relay => drawRelay relays quality

/-- Draw a loop for the pipeline `symbols` over the relay registrants. -/
def selectLoop (symbols : OnionPipelineSymbols (SymbolRegistrants relays X))
    (quality : Did → Option PeerQuality) (entropy : E) (guardPermitted : Did → Bool) :
    Except OnionRouteError (OnionLoop OnionRouteHop (OnionRouteHop × X)) := do
  let shape ← OnionLoopShape.new symbols.symbolCount
  if relays.hops.length < shape.distinctHops then
    throw (.notEnoughLoopHops shape.distinctHops relays.hops.length)
  let guards := permittedGuards relays guardPermitted
  if !admitsDistinctHops (.ofSymbols symbols.all) fun _ => false then
    throw .noDistinctSymbolHops
  if !admitsDistinctHops (.new symbols.all (guards.map (·.did))) fun _ => false then
    throw .noPermittedFirstHop
  (Effect.outcome (drawLoop symbols quality guards) ⟨∅, entropy⟩).1

/-! ### What the draws give -/

variable (quality : Did → Option PeerQuality) {s s' s'' : LoopDraw E}

/-- From `s` to `s'` the DIDs `l` were taken, each once. -/
structure Took (s : LoopDraw E) (l : List Did) (s' : LoopDraw E) : Prop where
  taken : s'.taken = s.taken ∪ l.toFinset
  fresh : ∀ did ∈ l, did ∉ s.taken
  nodup : l.Nodup

omit [RouteEntropy E] in
theorem took_nil : Took s [] s where
  taken := by simp
  fresh := by simp
  nodup := List.nodup_nil

omit [RouteEntropy E] in
theorem took_singleton {did : Did} (hfresh : did ∉ s.taken)
    (htaken : s'.taken = insert did s.taken) : Took s [did] s' where
  taken := by ext; simp [htaken]
  fresh := by simpa using hfresh
  nodup := List.nodup_singleton did

omit [RouteEntropy E] in
theorem Took.trans {l l' : List Did} (h : Took s l s') (h' : Took s' l' s'') :
    Took s (l ++ l') s'' where
  taken := by rw [h'.taken, h.taken, List.toFinset_append, Finset.union_assoc]
  fresh did hdid := by
    rcases List.mem_append.1 hdid with hdid | hdid
    · exact h.fresh did hdid
    · have := h'.fresh did hdid
      simp only [h.taken, Finset.mem_union, not_or] at this
      exact this.1
  nodup := by
    refine List.nodup_append.2 ⟨h.nodup, h'.nodup, ?_⟩
    rintro did hdid did' hdid' rfl
    have := h'.fresh did hdid'
    simp [h.taken, hdid] at this

theorem drawHop_succeeds {didOf : T → Did} {candidates : Finset Did → List T}
    (h : candidates s.taken ≠ []) :
    Effect.Succeeds (drawHop quality didOf candidates) s fun drawn s' =>
      drawn ∈ candidates s.taken ∧ s'.taken = insert (didOf drawn) s.taken := by
  obtain ⟨c, hc, entropy', hdraw⟩ := drawWeighted_of_ne_nil quality h didOf s.entropy
  refine ⟨c, ⟨insert (didOf c) s.taken, entropy'⟩, ?_, hc, rfl⟩
  rw [drawHop, Effect.outcome_bind_of_ok (Effect.outcome_get s), hdraw]
  rfl

/-- A symbol's draw leaves a matching of the positions after it. -/
theorem drawSymbol_succeeds (registrants : SymbolRegistrants relays X)
    (later : List (SymbolRegistrants relays X)) (guards : List Did)
    (h : HasRepresentatives (registrants.dids :: (later.map (·.dids) ++ [guards]))
      (· ∈ s.taken)) :
    Effect.Succeeds (drawSymbol quality guards registrants later) s fun drawn s' =>
       drawn ∈ registrants.registrations ∧ Took s [drawn.1.did] s' ∧
        HasRepresentatives (later.map (·.dids) ++ [guards]) (· ∈ s'.taken) := by
  obtain ⟨did, hdid, hfresh, hrest⟩ := (hasRepresentatives_cons _ _ _).1 h
  rw [registrants.projected] at hdid
  obtain ⟨c, hc, rfl⟩ := List.mem_map.1 hdid
  unfold drawSymbol
  refine (drawHop_succeeds quality (List.ne_nil_of_mem (List.mem_filter.2 ⟨hc, ?_⟩))).mono ?_
  · simp only [Bool.and_eq_true, decide_eq_true_eq, admitsDistinctHops_eq_true]
    refine ⟨hfresh, ?_⟩
    simpa [PendingPositions.families, PendingPositions.new] using hrest
  · rintro drawn s' ⟨hdrawn, htaken⟩
    obtain ⟨hmem, hkeep⟩ := List.mem_filter.1 hdrawn
    simp only [Bool.and_eq_true, decide_eq_true_eq, admitsDistinctHops_eq_true] at hkeep
    refine ⟨hmem, took_singleton hkeep.1 htaken, ?_⟩
    simpa [PendingPositions.families, PendingPositions.new, htaken] using hkeep.2

theorem zip_laters {S : Type} (symbol terminal : S) (intermediate : List S) :
    (symbol :: intermediate).zip ((symbol :: intermediate ++ [terminal]).tails.tail) =
      (symbol, intermediate ++ [terminal]) ::
        intermediate.zip ((intermediate ++ [terminal]).tails.tail) := by
  cases intermediate <;> simp

/-- The draws of the symbols before the last leave a matching of the last one and the guard. -/
theorem drawIntermediate_succeeds (terminal : SymbolRegistrants relays X) (guards : List Did)
    (intermediate : List (SymbolRegistrants relays X)) (s : LoopDraw E)
    (h : HasRepresentatives ((intermediate ++ [terminal]).map (·.dids) ++ [guards])
      (· ∈ s.taken)) :
    Effect.Succeeds ((intermediate.zip (intermediate ++ [terminal]).tails.tail).mapM
        fun (registrants, later) => drawSymbol quality guards registrants later) s
      fun drawn s' => List.Forall₂ (fun d r => d ∈ r.registrations) drawn intermediate ∧
        Took s (drawn.map (·.1.did)) s' ∧
        HasRepresentatives [terminal.dids, guards] (· ∈ s'.taken) := by
  induction intermediate generalizing s with
  | nil =>
    simp only [List.nil_append, List.zip_nil_left, List.mapM_nil]
    exact Effect.succeeds_pure ⟨List.Forall₂.nil, took_nil, h⟩
  | cons registrants intermediate ih =>
    rw [zip_laters, List.mapM_cons]
    refine (drawSymbol_succeeds quality registrants (intermediate ++ [terminal]) guards h).bind ?_
    rintro d s' ⟨hd, htook, hrest⟩
    refine (ih s' hrest).bind ?_
    rintro drawn s'' ⟨hdrawn, htook', hlast⟩
    exact Effect.succeeds_pure ⟨List.Forall₂.cons hd hdrawn, htook.trans htook', hlast⟩

/-- The symbols draw distinct registrants and leave a guard. -/
theorem drawSymbols_succeeds (symbols : OnionPipelineSymbols (SymbolRegistrants relays X))
    (guards : List Did) (s : LoopDraw E)
    (h : HasRepresentatives (symbols.all.map (·.dids) ++ [guards]) (· ∈ s.taken)) :
    Effect.Succeeds (symbols.tryMapWithLater (drawSymbol quality guards)) s fun drawn s' =>
        List.Forall₂ (fun d r => d ∈ r.registrations) (drawn.1 ++ [drawn.2]) symbols.all ∧
        Took s ((drawn.1 ++ [drawn.2]).map (·.1.did)) s' ∧
        HasRepresentatives [guards] (· ∈ s'.taken) := by
  obtain ⟨all, intermediate, terminal, rfl⟩ := symbols
  refine (drawIntermediate_succeeds quality terminal guards intermediate s h).bind ?_
  rintro drawn s' ⟨hdrawn, htook, hlast⟩
  refine (drawSymbol_succeeds quality terminal [] guards hlast).bind ?_
  rintro d s'' ⟨hd, htook', hguard⟩
  refine Effect.succeeds_pure ⟨?_, ?_, hguard⟩
  · exact List.rel_append hdrawn (List.Forall₂.cons hd List.Forall₂.nil)
  · rw [List.map_append]
    exact htook.trans htook'

/-! ### Relays -/

/-- So many relay registrants are still to be had. -/
def Room (relays : RelayRegistrants) (n : ℕ) (s : LoopDraw E) : Prop :=
  s.taken ⊆ (relays.hops.map (·.did)).toFinset ∧ s.taken.card + n ≤ relays.hops.length

omit [RouteEntropy E] in
theorem Room.took {n : ℕ} {l : List Did} (h : Room relays (l.length + n) s)
    (hl : ∀ did ∈ l, did ∈ relays.hops.map (·.did)) (htook : Took s l s') :
    Room relays n s' := by
  refine ⟨?_, ?_⟩
  · rw [htook.taken]
    exact Finset.union_subset h.1 fun did hdid => by simpa using hl did (by simpa using hdid)
  · have hdisjoint : Disjoint s.taken l.toFinset := by
      refine Finset.disjoint_right.2 fun did hdid => htook.fresh did (by simpa using hdid)
    have hroom := h.2
    rw [htook.taken, Finset.card_union_of_disjoint hdisjoint,
      List.toFinset_card_of_nodup htook.nodup]
    omega

theorem drawRelay_succeeds {n : ℕ} (h : Room relays (n + 1) s) :
    Effect.Succeeds (drawRelay relays quality) s fun hop s' =>
      hop ∈ relays.hops ∧ Took s [hop.did] s' ∧ Room relays n s' := by
  have hne : relays.hops.filter (·.did ∉ s.taken) ≠ [] := by
    have hcard : (relays.hops.map (·.did)).toFinset.card = relays.hops.length := by
      rw [List.toFinset_card_of_nodup relays.nodup_dids, List.length_map]
    have hlt : s.taken.card < (relays.hops.map (·.did)).toFinset.card := by
      have := h.2
      omega
    obtain ⟨did, hdid, hfresh⟩ := Finset.exists_mem_notMem_of_card_lt_card hlt
    obtain ⟨hop, hhop, rfl⟩ := List.mem_map.1 (List.mem_toFinset.1 hdid)
    exact List.ne_nil_of_mem (List.mem_filter.2 ⟨hhop, by simpa using hfresh⟩)
  refine (drawHop_succeeds quality hne).mono ?_
  rintro hop s' ⟨hhop, htaken⟩
  obtain ⟨hmem, hfresh⟩ := List.mem_filter.1 hhop
  have htook : Took s [hop.did] s' := took_singleton (by simpa using hfresh) htaken
  refine ⟨hmem, htook, Room.took (l := [hop.did]) (by simpa [Nat.add_comm] using h) ?_ htook⟩
  simpa using ⟨hop, hmem, rfl⟩

theorem drawRelays_succeeds {γ : Type} (l : List γ) (n : ℕ) (s : LoopDraw E)
    (h : Room relays (l.length + n) s) :
    Effect.Succeeds (l.mapM fun _ => drawRelay relays quality) s fun hops s' =>
      hops.length = l.length ∧ (∀ hop ∈ hops, hop ∈ relays.hops) ∧
      Took s (hops.map (·.did)) s' ∧ Room relays n s' := by
  induction l generalizing s with
  | nil =>
    rw [List.mapM_nil]
    exact Effect.succeeds_pure ⟨rfl, by simp, took_nil, by simpa using h⟩
  | cons a l ih =>
    rw [List.mapM_cons]
    refine (drawRelay_succeeds quality (n := l.length + n)
      (by rwa [List.length_cons, Nat.add_right_comm] at h)).bind ?_
    rintro hop s' ⟨hhop, htook, hroom⟩
    refine (ih s' hroom).bind ?_
    rintro hops s'' ⟨hlen, hhops, htook', hroom'⟩
    refine Effect.succeeds_pure ⟨by simp [hlen], ?_, ?_, hroom'⟩
    · simpa using ⟨hhop, hhops⟩
    · exact htook.trans htook'

/-- The intermediate symbols, each with a segment of relays after it. -/
theorem drawStages_succeeds {D : Type} (intermediate : List D) (n : ℕ) (s : LoopDraw E)
    (h : Room relays (onionSegmentRelays * intermediate.length + n) s) :
    Effect.Succeeds (intermediate.mapM fun symbol => do
        let hops ← (List.range onionSegmentRelays).mapM fun _ => drawRelay relays quality
        return (symbol, hops)) s
      fun stages s' => stages.map (·.1) = intermediate ∧
        (∀ stage ∈ stages, stage.2.length = onionSegmentRelays ∧
          ∀ hop ∈ stage.2, hop ∈ relays.hops) ∧
        Took s ((stages.flatMap (·.2)).map (·.did)) s' ∧ Room relays n s' := by
  induction intermediate generalizing s with
  | nil =>
    rw [List.mapM_nil]
    exact Effect.succeeds_pure ⟨rfl, by simp, took_nil, by simpa using h⟩
  | cons symbol intermediate ih =>
    rw [List.mapM_cons]
    have hroom : Room relays ((List.range onionSegmentRelays).length +
        (onionSegmentRelays * intermediate.length + n)) s := by
      rw [List.length_range]
      rw [List.length_cons, Nat.mul_succ] at h
      rwa [show onionSegmentRelays + (onionSegmentRelays * intermediate.length + n) =
        onionSegmentRelays * intermediate.length + onionSegmentRelays + n by omega]
    have hstage := (drawRelays_succeeds quality (List.range onionSegmentRelays) _ s
      hroom).bind (f := fun hops => pure (symbol, hops)) (R := fun stage s' => stage.1 = symbol ∧
        (stage.2.length = onionSegmentRelays ∧ ∀ hop ∈ stage.2, hop ∈ relays.hops) ∧
        Took s (stage.2.map (·.did)) s' ∧
        Room relays (onionSegmentRelays * intermediate.length + n) s') fun hops s' hq =>
          Effect.succeeds_pure ⟨rfl, ⟨by simpa using hq.1, hq.2.1⟩, hq.2.2⟩
    refine hstage.bind ?_
    rintro stage s' ⟨hsymbol, hrelays, htook, hroom⟩
    refine (ih s' hroom).bind ?_
    rintro stages s'' ⟨hsymbols, hstages, htook', hroom'⟩
    refine Effect.succeeds_pure ⟨by simp [hsymbol, hsymbols], ?_, ?_, hroom'⟩
    · simpa using ⟨hrelays, by simpa using hstages⟩
    · rw [List.flatMap_cons, List.map_append]
      exact htook.trans htook'

theorem tryUnfold_succeeds {D : Type} (intermediate : List D) (terminal : D)
    (hn : intermediate.length + 1 ≤ maxOnionLoopSymbols) (guard : OnionRouteHop) (s : LoopDraw E)
    (h : Room relays (onionSegmentRelays * intermediate.length + 2) s) :
    Effect.Succeeds (OnionLoop.tryUnfold intermediate terminal fun
        | .guard => pure guard
        | .relay => drawRelay relays quality) s
      fun l s' => l.guard = guard ∧ l.symbols = intermediate ++ [terminal] ∧
        l.lead.length = 1 ∧ l.tail.length = 1 ∧
        (∀ stage ∈ l.stages, stage.2.length = onionSegmentRelays) ∧
        (∀ hop ∈ l.lead ++ l.stages.flatMap (·.2) ++ l.tail, hop ∈ relays.hops) ∧
        Took s ((l.lead ++ l.stages.flatMap (·.2) ++ l.tail).map (·.did)) s' := by
  have hshape : Effect.Succeeds
      (ExceptT.mk (pure (OnionLoopShape.new (intermediate.length + 1))) :
        Effect (LoopDraw E) OnionRouteError OnionLoopShape) s fun _ s' => s' = s := by
    refine ⟨⟨intermediate.length + 1, by omega, hn⟩, s, ?_, rfl⟩
    simp only [OnionLoopShape.new, Nat.succ_ne_zero, not_lt.2 hn, or_self, dif_neg,
      not_false_eq_true]
    rfl
  refine hshape.bind fun _ s' hs => ?_
  subst hs
  refine (Effect.succeeds_pure (Q := fun g s'' => g = guard ∧ s'' = s') ⟨rfl, rfl⟩).bind ?_
  rintro g s'' ⟨rfl, rfl⟩
  refine (drawRelays_succeeds quality (List.range' 1 (onionSegmentRelays - 1))
    (onionSegmentRelays * intermediate.length + 1) s'' ?_).bind ?_
  · rwa [List.length_range', show onionSegmentRelays - 1 +
      (onionSegmentRelays * intermediate.length + 1) = onionSegmentRelays * intermediate.length + 2
      by simp only [onionSegmentRelays]; omega]
  rintro lead s₁ ⟨hlead, hleads, htook, hroom⟩
  refine (drawStages_succeeds quality intermediate 1 s₁ hroom).bind ?_
  rintro stages s₂ ⟨hsymbols, hstages, htook', hroom'⟩
  refine (drawRelays_succeeds quality (List.range' 1 (onionSegmentRelays - 1)) 0 s₂ hroom').bind ?_
  rintro tail s₃ ⟨htail, htails, htook'', -⟩
  refine Effect.succeeds_pure ⟨rfl, by simp [OnionLoop.symbols, hsymbols],
    by simpa [onionSegmentRelays] using hlead, by simpa [onionSegmentRelays] using htail,
    fun stage hstage => (hstages stage hstage).1, fun hop hhop => ?_, ?_⟩
  · simp only [List.mem_append, List.mem_flatMap] at hhop
    rcases hhop with (hhop | ⟨stage, hstage, hhop⟩) | hhop
    · exact hleads hop hhop
    · exact (hstages stage hstage).2 hop hhop
    · exact htails hop hhop
  · simp only [List.map_append]
    exact (htook.trans htook').trans htook''

/-- The drawn loop: the symbols are registrants, the guard is permitted, every hop is a relay
registrant and no hop of the open path occurs twice. -/
structure Drawn (symbols : List (SymbolRegistrants relays X)) (guardPermitted : Did → Bool)
    (l : OnionLoop OnionRouteHop (OnionRouteHop × X)) : Prop where
  symbols : List.Forall₂ (fun d r => d ∈ r.registrations) l.symbols symbols
  lead : l.lead.length = 1
  tail : l.tail.length = 1
  stages : ∀ stage ∈ l.stages, stage.2.length = onionSegmentRelays
  guard : l.guard ∈ relays.hops ∧ guardPermitted l.guard.did
  relays : ∀ hop ∈ l.lead ++ l.stages.flatMap (·.2) ++ l.tail, hop ∈ relays.hops
  distinct : ((l.symbols.map (·.1) ++ [l.guard] ++
    (l.lead ++ l.stages.flatMap (·.2) ++ l.tail)).map (·.did)).Nodup

theorem drawLoop_succeeds (symbols : OnionPipelineSymbols (SymbolRegistrants relays X))
    (hn : symbols.all.length ≤ maxOnionLoopSymbols) (guardPermitted : Did → Bool)
    (hroom : loopHops symbols.all.length - 1 ≤ relays.hops.length) {guards : List OnionRouteHop}
    (hguards : ∀ g ∈ guards, g ∈ relays.hops ∧ guardPermitted g.did) (entropy : E)
    (h : HasRepresentatives (symbols.all.map (·.dids) ++ [guards.map (·.did)])
      (· ∈ (∅ : Finset Did))) :
    Effect.Succeeds (drawLoop symbols quality guards) ⟨∅, entropy⟩
      fun l _ => Drawn symbols.all guardPermitted l := by
  unfold drawLoop
  have hsymbols := drawSymbols_succeeds quality symbols (guards.map (·.did))
    (⟨∅, entropy⟩ : LoopDraw E) h
  refine hsymbols.bind ?_
  rintro ⟨intermediate, terminal⟩ s₁ ⟨hsymbols, htook, hguard⟩
  obtain ⟨did, hdid, hfresh, -⟩ := (hasRepresentatives_cons _ _ _).1 hguard
  obtain ⟨g, hg, rfl⟩ := List.mem_map.1 hdid
  have hne : guards.filter (·.did ∉ s₁.taken) ≠ [] :=
    List.ne_nil_of_mem (List.mem_filter.2 ⟨hg, by simpa using hfresh⟩)
  refine (drawHop_succeeds quality hne).bind ?_
  rintro guard s₂ ⟨hmem, htaken⟩
  obtain ⟨hmem, hfresh⟩ := List.mem_filter.1 hmem
  have htook' := htook.trans (took_singleton (by simpa using hfresh) htaken)
  have hlen : (intermediate ++ [terminal]).length = symbols.all.length := hsymbols.length_eq
  have hguard := hguards guard hmem
  -- the symbols and the guard are relay registrants, which leaves room for the relays
  have hroom : Room relays (onionSegmentRelays * intermediate.length + 2) s₂ := by
    refine Room.took (s := ⟨∅, entropy⟩) ⟨by simp, ?_⟩ ?_ htook'
    · simp only [List.length_append, List.length_map, List.length_cons, List.length_nil] at hlen ⊢
      simp only [loopHops, symbolPeriod, onionSegmentRelays, Finset.card_empty] at hroom ⊢
      omega
    · intro did hdid
      rcases List.mem_append.1 hdid with hdid | hdid
      · obtain ⟨d, hd, rfl⟩ := List.mem_map.1 hdid
        obtain ⟨i, hi, rfl⟩ := List.getElem_of_mem hd
        have := hsymbols.get hi (hsymbols.length_eq ▸ hi)
        exact List.mem_map.2 ⟨_, SymbolRegistrants.registered _ _ this, rfl⟩
      · obtain rfl := List.mem_singleton.1 hdid
        exact List.mem_map.2 ⟨guard, hguard.1, rfl⟩
  have hn : intermediate.length + 1 ≤ maxOnionLoopSymbols := by
    simp only [List.length_append, List.length_cons, List.length_nil] at hlen
    omega
  have hloop := tryUnfold_succeeds quality intermediate terminal hn guard s₂ hroom
  refine hloop.mono ?_
  rintro l s₃ ⟨hlguard, hlsymbols, hlead, htail, hstages, hrelays, htook''⟩
  refine ⟨hlsymbols ▸ hsymbols, hlead, htail, hstages, hlguard ▸ hguard, hrelays, ?_⟩
  have := (htook'.trans htook'').nodup
  simpa [hlguard, hlsymbols, Function.comp_def] using this

end Select

/-! ### Positions -/

section Positions

variable {P T : Type}

theorem symbols_projectSymbols (l : OnionLoop P T) (project : T → P) :
    (l.projectSymbols project).1.symbols = l.symbols.map project := by
  simp [OnionLoop.symbols, OnionLoop.projectSymbols]

/-- The hops of the open path are the symbols, the guard and the relays. -/
theorem openPath_perm (l : OnionLoop P P) :
    l.openPath.Perm (l.symbols ++ [l.guard] ++ (l.lead ++ l.stages.flatMap (·.2) ++ l.tail)) := by
  have hstages : (l.stages.flatMap fun stage => stage.1 :: stage.2).Perm
      (l.stages.map (·.1) ++ l.stages.flatMap (·.2)) :=
    (List.map_append_flatMap_perm l.stages (·.1) (·.2)).symm
  classical
  rw [List.perm_iff_count]
  intro a
  have := hstages.count_eq a
  simp only [OnionLoop.openPath, OnionLoop.symbols, List.count_append, List.count_cons,
    List.count_nil] at this ⊢
  omega

theorem length_stages (stages : List (T × List T))
    (h : ∀ stage ∈ stages, stage.2.length = onionSegmentRelays) :
    (stages.flatMap fun stage => stage.1 :: stage.2).length = symbolPeriod * stages.length := by
  induction stages with
  | nil => rfl
  | cons stage stages ih =>
    have hstage := h stage List.mem_cons_self
    have := ih fun stage' h' => h stage' (List.mem_cons_of_mem stage h')
    simp only [List.flatMap_cons, List.length_append, List.length_cons, hstage, this,
      symbolPeriod]
    ring

theorem length_positions (l : OnionLoop P P) (hlead : l.lead.length = 1) (htail : l.tail.length = 1)
    (hstages : ∀ stage ∈ l.stages, stage.2.length = onionSegmentRelays) :
    l.positions.length = loopHops l.symbols.length := by
  have := length_stages l.stages hstages
  simp only [OnionLoop.positions, OnionLoop.openPath, OnionLoop.symbols, List.length_append,
    List.length_cons, List.length_nil, List.length_map, hlead, htail, this, loopHops]
  simp only [symbolPeriod, onionSegmentRelays]
  ring

theorem stages_symbol (terminal : T) (rest : List T) (stages : List (T × List T)) (k : ℕ)
    (hstages : ∀ stage ∈ stages, stage.2.length = onionSegmentRelays) (hk : k ≤ stages.length) :
    (stages.flatMap (fun stage => stage.1 :: stage.2) ++ terminal :: rest)[symbolPeriod * k]? =
      (stages.map (·.1) ++ [terminal])[k]? := by
  induction stages generalizing k with
  | nil =>
    obtain rfl : k = 0 := by simpa using hk
    rfl
  | cons stage stages ih =>
    cases k with
    | zero => rfl
    | succ k =>
      have hlen := hstages stage List.mem_cons_self
      have hrest := ih k (fun stage' h' => hstages stage' (List.mem_cons_of_mem stage h'))
        (by simpa using hk)
      have hsub : symbolPeriod * (k + 1) = symbolPeriod * k + (stage.1 :: stage.2).length := by
        rw [List.length_cons, hlen, Nat.mul_succ, symbolPeriod]
      rw [List.flatMap_cons, List.append_assoc, hsub,
        List.getElem?_append_right (Nat.le_add_left _ _), Nat.add_sub_cancel, hrest]
      simp

theorem positions_symbol (l : OnionLoop P P) (hlead : l.lead.length = 1)
    (hstages : ∀ stage ∈ l.stages, stage.2.length = onionSegmentRelays) {k : ℕ}
    (hk : k < l.symbols.length) :
    l.positions[symbolPeriod * (k + 1) - 1]? = some l.symbols[k] := by
  obtain ⟨guard, lead, stages, terminal, tail⟩ := l
  obtain ⟨relay, rfl⟩ := List.length_eq_one_iff.1 hlead
  have hle : k ≤ stages.length := by
    simp only [OnionLoop.symbols, List.length_append, List.length_map, List.length_cons,
      List.length_nil] at hk
    omega
  have hat := stages_symbol terminal (tail ++ [guard]) stages k hstages hle
  have hpos : symbolPeriod * (k + 1) - 1 = symbolPeriod * k + 2 := by
    simp only [symbolPeriod, onionSegmentRelays]
    omega
  rw [← List.getElem?_eq_getElem hk, hpos]
  simpa [OnionLoop.positions, OnionLoop.openPath, OnionLoop.symbols] using hat

theorem openPath_eq_cons (l : OnionLoop P P) : ∃ path, l.openPath = l.guard :: path :=
  ⟨l.lead ++ l.stages.flatMap (fun stage => stage.1 :: stage.2) ++ [l.terminal] ++ l.tail, by
    simp [OnionLoop.openPath]⟩

/-- The guard stands at the first and the last position and nowhere else. -/
theorem positions_guard (didOf : P → Did) (l : OnionLoop P P) (h : (l.openPath.map didOf).Nodup)
    {i : ℕ} {hop : P} (hi : l.positions[i]? = some hop) :
    didOf hop = didOf l.guard ↔ i = 0 ∨ i + 1 = l.positions.length := by
  obtain ⟨path, hpath⟩ := openPath_eq_cons l
  rw [hpath, List.map_cons, List.nodup_cons] at h
  simp only [OnionLoop.positions, hpath, List.cons_append] at hi ⊢
  cases i with
  | zero =>
    obtain rfl : l.guard = hop := by simpa using hi
    simp
  | succ i =>
    rw [List.getElem?_cons_succ] at hi
    simp only [Nat.succ_ne_zero, false_or, List.length_cons, List.length_append, List.length_nil]
    by_cases hlt : i < path.length
    · rw [List.getElem?_append_left hlt] at hi
      have hne : didOf hop ≠ didOf l.guard := fun heq =>
        h.1 (heq ▸ List.mem_map_of_mem (List.mem_of_getElem? hi))
      exact iff_of_false hne (by omega)
    · rw [List.getElem?_append_right (not_lt.1 hlt)] at hi
      have hlast : i - path.length = 0 := by
        by_contra hpos
        rw [List.getElem?_eq_none (by simpa using Nat.one_le_iff_ne_zero.2 hpos)] at hi
        cases hi
      obtain rfl : l.guard = hop := by simpa [hlast] using hi
      exact iff_of_true rfl (by omega)

/-- No other hop occurs twice. -/
theorem count_positions (didOf : P → Did) (l : OnionLoop P P)
    (h : (l.openPath.map didOf).Nodup) {did : Did} (hdid : did ∈ l.positions.map didOf)
    (hne : did ≠ didOf l.guard) : (l.positions.map didOf).count did = 1 := by
  simp only [OnionLoop.positions, List.map_append, List.map_cons, List.map_nil, List.mem_append,
    List.mem_singleton, hne, or_false] at hdid
  rw [OnionLoop.positions, List.map_append, List.count_append, List.count_eq_one_of_mem h hdid]
  simp [Ne.symm hne]

end Positions

/-! ### Selection -/

section Selection

variable {E X : Type} [RouteEntropy E] {relays : RelayRegistrants}

/-- A loop for the symbols: the hop at position `3 k` is a registrant of the symbol `k` and a relay
registration, the guard is permitted and stands at the first and last positions only, every other
DID occurs once and every hop is a relay registrant. -/
structure Closes (symbols : List (SymbolRegistrants relays X)) (guardPermitted : Did → Bool)
    (l : OnionLoop OnionRouteHop (OnionRouteHop × X)) : Prop where
  length : (l.projectSymbols (·.1)).1.positions.length = loopHops symbols.length
  symbol : ∀ k (hk : k < symbols.length), ∃ d ∈ symbols[k].registrations, l.symbols[k]? = some d ∧
    (l.projectSymbols (·.1)).1.positions[symbolPeriod * (k + 1) - 1]? = some d.1 ∧
    relays.get d.1.did = some d.1
  permitted : guardPermitted l.guard.did
  guard : ∀ i hop, (l.projectSymbols (·.1)).1.positions[i]? = some hop →
    (hop.did = l.guard.did ↔ i = 0 ∨ i + 1 = loopHops symbols.length)
  once : ∀ did ∈ (l.projectSymbols (·.1)).1.positions.map (·.did), did ≠ l.guard.did →
    ((l.projectSymbols (·.1)).1.positions.map (·.did)).count did = 1
  relay : ∀ hop ∈ (l.projectSymbols (·.1)).1.positions, relays.get hop.did = some hop

theorem Drawn.closes {symbols : List (SymbolRegistrants relays X)} {guardPermitted : Did → Bool}
    {l : OnionLoop OnionRouteHop (OnionRouteHop × X)} (h : Drawn symbols guardPermitted l) :
    Closes symbols guardPermitted l := by
  set path := (l.projectSymbols (·.1)).1 with hpath
  have hstages : ∀ stage ∈ path.stages, stage.2.length = onionSegmentRelays := by
    intro stage hstage
    obtain ⟨stage', h', rfl⟩ := List.mem_map.1 hstage
    exact h.stages stage' h'
  have hsymbols : path.symbols = l.symbols.map (·.1) := symbols_projectSymbols l (·.1)
  have hrelays : path.stages.flatMap (·.2) = l.stages.flatMap (·.2) := by
    simp [hpath, OnionLoop.projectSymbols, List.flatMap_map]
  have hperm : path.openPath.Perm
      (l.symbols.map (·.1) ++ [l.guard] ++ (l.lead ++ l.stages.flatMap (·.2) ++ l.tail)) := by
    rw [← hsymbols, ← hrelays]
    exact openPath_perm path
  have hnodup : (path.openPath.map (·.did)).Nodup :=
    (hperm.map (·.did)).nodup_iff.2 h.distinct
  have hlen : l.symbols.length = symbols.length := h.symbols.length_eq
  have hlength : path.positions.length = loopHops symbols.length := by
    rw [length_positions path h.lead h.tail hstages, hsymbols, List.length_map, hlen]
  have hregistered : ∀ d ∈ l.symbols, d.1 ∈ relays.hops := by
    intro d hd
    obtain ⟨i, hi, rfl⟩ := List.getElem_of_mem hd
    exact SymbolRegistrants.registered _ _ (h.symbols.get hi (hlen ▸ hi))
  refine ⟨hlength, fun k hk => ?_, h.guard.2, fun i hop hi => ?_, fun did hdid hne => ?_,
    fun hop hhop => ?_⟩
  · have hk' : k < l.symbols.length := hlen ▸ hk
    have hd := h.symbols.get hk' hk
    refine ⟨l.symbols[k], hd, List.getElem?_eq_getElem hk', ?_,
      relays.get_eq_some (hregistered _ (List.getElem_mem hk'))⟩
    rw [positions_symbol path h.lead hstages (by rwa [hsymbols, List.length_map])]
    simp [hsymbols]
  · rw [← hlength]
    exact positions_guard (·.did) path hnodup hi
  · exact count_positions (·.did) path hnodup hdid hne
  · refine relays.get_eq_some ?_
    rw [OnionLoop.positions, List.mem_append, List.mem_singleton, hperm.mem_iff] at hhop
    simp only [List.mem_append, List.mem_map, List.mem_singleton] at hhop
    rcases hhop with ((⟨d, hd, rfl⟩ | rfl) | hhop) | rfl
    · exact hregistered d hd
    · exact h.guard.1
    · exact h.relays hop (by simpa [or_assoc] using hhop)
    · exact h.guard.1

theorem selectLoop_eq (symbols : OnionPipelineSymbols (SymbolRegistrants relays X))
    (hn : symbols.all.length ≤ maxOnionLoopSymbols) (quality : Did → Option PeerQuality)
    (entropy : E) (guardPermitted : Did → Bool) :
    selectLoop symbols quality entropy guardPermitted =
      if relays.hops.length < loopHops symbols.all.length - 1 then
        .error (.notEnoughLoopHops (loopHops symbols.all.length - 1) relays.hops.length)
      else if !admitsDistinctHops (.ofSymbols symbols.all) fun _ => false then
        .error .noDistinctSymbolHops
      else if !admitsDistinctHops
          (.new symbols.all ((permittedGuards relays guardPermitted).map (·.did)))
          fun _ => false then
        .error .noPermittedFirstHop
      else (Effect.outcome (drawLoop symbols quality (permittedGuards relays guardPermitted))
        ⟨∅, entropy⟩).1 := by
  have hpos : symbols.all.length ≠ 0 := by simp [symbols.split]
  have hshape : OnionLoopShape.new symbols.symbolCount =
      .ok ⟨symbols.all.length, hpos, hn⟩ :=
    dif_neg (not_or.2 ⟨hpos, not_lt.2 hn⟩)
  unfold selectLoop
  rw [hshape]
  simp only [bind, Except.bind, OnionLoopShape.distinctHops, OnionLoopShape.hopCount, throw,
    throwThe, MonadExceptOf.throw]
  rfl

/-- Selection fails with the first of its three failures that applies, and otherwise returns a loop
for the pipeline; its matchings find distinct hops exactly when there are some. -/
theorem selectLoop_complete (symbols : OnionPipelineSymbols (SymbolRegistrants relays X))
    (hn : symbols.all.length ≤ maxOnionLoopSymbols) (quality : Did → Option PeerQuality)
    (entropy : E) (guardPermitted : Did → Bool) :
    let required := loopHops symbols.all.length - 1
    let families := symbols.all.map (·.dids)
    let guards := (permittedGuards relays guardPermitted).map (·.did)
    (∀ e, selectLoop symbols quality entropy guardPermitted = .error e →
      relays.hops.length < required ∧ e = .notEnoughLoopHops required relays.hops.length ∨
      required ≤ relays.hops.length ∧ ¬ HasRepresentatives families (fun _ => False) ∧
        e = .noDistinctSymbolHops ∨
      required ≤ relays.hops.length ∧ HasRepresentatives families (fun _ => False) ∧
        ¬ HasRepresentatives (families ++ [guards]) (fun _ => False) ∧
        e = .noPermittedFirstHop) ∧
    (∀ l, selectLoop symbols quality entropy guardPermitted = .ok l →
      required ≤ relays.hops.length ∧ HasRepresentatives (families ++ [guards]) (fun _ => False) ∧
      Closes symbols.all guardPermitted l) ∧
    ∀ (pending : PendingPositions relays X) (excluded : Did → Bool),
      admitsDistinctHops pending excluded = true ↔
        HasRepresentatives pending.families fun did => excluded did := by
  intro required families guards
  have hfamilies : admitsDistinctHops (.ofSymbols symbols.all) (fun _ => false) = true ↔
      HasRepresentatives families fun _ => False := by
    rw [admitsDistinctHops_eq_true]
    simp [PendingPositions.families, PendingPositions.ofSymbols, families]
  have hguards : admitsDistinctHops (.new symbols.all guards) (fun _ => false) = true ↔
      HasRepresentatives (families ++ [guards]) fun _ => False := by
    rw [admitsDistinctHops_eq_true]
    simp [PendingPositions.families, PendingPositions.new, families]
  have heq := selectLoop_eq symbols hn quality entropy guardPermitted
  have hpermitted : ∀ g ∈ permittedGuards relays guardPermitted,
      g ∈ relays.hops ∧ guardPermitted g.did := fun g hg => List.mem_filter.1 hg
  refine ⟨fun e he => ?_, fun l hl => ?_, admitsDistinctHops_eq_true⟩
  · rw [heq] at he
    split_ifs at he with hlen hdistinct hguard
    · cases he
      exact .inl ⟨hlen, rfl⟩
    · cases he
      rw [Bool.not_eq_true', Bool.eq_false_iff, Ne, hfamilies] at hdistinct
      exact .inr (.inl ⟨not_lt.1 hlen, hdistinct, rfl⟩)
    · cases he
      rw [Bool.not_eq_true', Bool.eq_false_iff, Ne, hguards] at hguard
      rw [Bool.not_eq_true', Bool.not_eq_false, hfamilies] at hdistinct
      exact .inr (.inr ⟨not_lt.1 hlen, hdistinct, hguard, rfl⟩)
    · rw [Bool.not_eq_true', Bool.not_eq_false, hguards] at hguard
      -- no draw is empty
      obtain ⟨l, s, hl, -⟩ := drawLoop_succeeds quality symbols hn guardPermitted
        (not_lt.1 hlen) hpermitted entropy (by simpa using hguard)
      rw [hl] at he
      cases he
  · rw [heq] at hl
    split_ifs at hl with hlen hdistinct hguard
    rw [Bool.not_eq_true', Bool.not_eq_false, hguards] at hguard
    obtain ⟨l', s, hl', hdrawn⟩ := drawLoop_succeeds quality symbols hn guardPermitted
      (not_lt.1 hlen) hpermitted entropy (by simpa using hguard)
    rw [hl'] at hl
    cases hl
    exact ⟨not_lt.1 hlen, hguard, hdrawn.closes⟩

instance : RouteEntropy ℕ := ⟨fun n => (Fin.ofNat (2 ^ 64) (n * n), n + 1)⟩

/-- As many relays as a loop of one symbol needs. -/
def smallRing : RelayRegistrants := .new [⟨4, 0, 0⟩, ⟨2, 0, 0⟩, ⟨1, 0, 0⟩, ⟨3, 0, 0⟩]

theorem selectLoop_complete_smallRing :
    ∃ l, selectLoop (.single (smallRing.admitted [⟨1, 0, 0⟩, ⟨2, 0, 0⟩] id)) (fun _ => none) (7 : ℕ)
        (· = 1) = .ok l ∧
      Closes [smallRing.admitted [⟨1, 0, 0⟩, ⟨2, 0, 0⟩] id] (· = 1) l := by
  have h := selectLoop_complete (.single (smallRing.admitted [⟨1, 0, 0⟩, ⟨2, 0, 0⟩] id)) (by decide)
    (fun _ => none) (7 : ℕ) (· = 1)
  have hok : (selectLoop (.single (smallRing.admitted [⟨1, 0, 0⟩, ⟨2, 0, 0⟩] id)) (fun _ => none)
      (7 : ℕ) (· = 1)).isOk = true := by decide +kernel
  cases hl : selectLoop (.single (smallRing.admitted [⟨1, 0, 0⟩, ⟨2, 0, 0⟩] id)) (fun _ => none)
      (7 : ℕ) (· = 1) with
  | error e =>
    rw [hl] at hok
    cases hok
  | ok l => exact ⟨l, rfl, (h.2.1 l hl).2.2⟩

end Selection

end Rings.OnionRoute
