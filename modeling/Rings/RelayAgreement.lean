import Rings.RelayRecords

/-!
Agreement on relay holders and members.

At every stage of record spreading the segment of a node walks the ring, so the holder it
names is the first holder at or after the key's owner on the whole ring, and the members it
names are the first of the global member list.
-/

namespace Rings

/-! ### The nodes behind a node -/

section Behind

variable (c : ℕ → Did) (holds : Did → Bool)

/-- `js` are the indices of the holders behind `up`, nearest first, with none left out. -/
def Back : ℕ → List ℕ → Prop
  | _, [] => True
  | up, j :: js => 1 ≤ j ∧ j < up ∧ holds (c j) = true ∧
      (∀ x, j < x → x < up → holds (c x) = false) ∧ Back j js

def backIdx : ℕ → List ℕ → List ℕ
  | _, [] => []
  | up, j :: js => backIdx j js ++ [j] ++ (if j + 1 ≠ up then [j + 1] else [])

variable {c holds}

lemma Back.take {up : ℕ} {js : List ℕ} (h : Back c holds up js) (t : ℕ) :
    Back c holds up (js.take t) := by
  induction js generalizing up t with
  | nil => simpa using h
  | cons j js ih =>
    cases t with
    | zero => trivial
    | succ t => exact ⟨h.1, h.2.1, h.2.2.1, h.2.2.2.1, ih h.2.2.2.2 t⟩

/-- The indices of the holders below `u` and above `0`, in falling order. -/
def holdersBelow (c : ℕ → Did) (holds : Did → Bool) (u : ℕ) : List ℕ :=
  (List.range' 1 (u - 1)).reverse.filter fun j => holds (c j)

lemma mem_holdersBelow {u x : ℕ} :
    x ∈ holdersBelow c holds u ↔ (1 ≤ x ∧ x < u) ∧ holds (c x) = true := by
  rw [holdersBelow, List.mem_filter, List.mem_reverse, List.mem_range'_1]
  constructor <;> rintro ⟨h1, h2⟩ <;> exact ⟨by omega, h2⟩

lemma back_holdersBelow (u : ℕ) {up : ℕ} (hu : u ≤ up)
    (hgap : ∀ x, u ≤ x → x < up → holds (c x) = false) :
    Back c holds up (holdersBelow c holds u) := by
  induction u generalizing up with
  | zero => trivial
  | succ u ih =>
    rcases Nat.eq_zero_or_pos u with rfl | hpos
    · trivial
    rw [holdersBelow, Nat.add_sub_cancel, show u = (u - 1) + 1 by omega, List.range'_1_concat,
      List.reverse_append, List.reverse_singleton, List.singleton_append,
      show 1 + (u - 1) = u by omega]
    cases hh : holds (c u) with
    | true =>
      rw [List.filter_cons_of_pos (by simpa using hh)]
      exact ⟨hpos, by omega, hh, fun x h1 h2 => hgap x h1 h2, ih le_rfl fun x h1 h2 => by omega⟩
    | false =>
      rw [List.filter_cons_of_neg (by simp [hh])]
      refine ih (by omega) fun x h1 h2 => ?_
      rcases Nat.eq_or_lt_of_le h1 with rfl | h3
      · exact hh
      · exact hgap x h3 h2

lemma back_head? (up : ℕ) (js : List ℕ) :
    (backIdx up js ++ [up]).head? = some (js.getLastD up) := by
  induction js generalizing up with
  | nil => rfl
  | cons j js ih =>
    have hne : backIdx j js ++ [j] ≠ [] := by simp
    rw [backIdx, List.append_assoc, List.head?_append_of_ne_nil _ hne, ih, List.getLastD_cons]

lemma Back.le {up : ℕ} {js : List ℕ} (h : Back c holds up js) : js.getLastD up ≤ up := by
  induction js generalizing up with
  | nil => exact le_refl _
  | cons j js ih =>
    rw [List.getLastD_cons]
    exact le_trans (ih h.2.2.2.2) h.2.1.le

lemma holdersBelow_last {u x : ℕ} (hx : 1 ≤ x) (h : x < (holdersBelow c holds u).getLastD u) :
    holds (c x) = false := by
  by_contra hd
  rw [Bool.not_eq_false] at hd
  have hle : (holdersBelow c holds u).getLastD u ≤ u :=
    (back_holdersBelow u le_rfl fun y h1 h2 => by omega).le
  have hmem : x ∈ holdersBelow c holds u := mem_holdersBelow.mpr ⟨⟨hx, by omega⟩, hd⟩
  have hsorted : (holdersBelow c holds u).Pairwise (· > ·) := by
    refine List.Pairwise.filter _ ?_
    rw [List.pairwise_reverse]
    exact List.pairwise_lt_range'
  rw [List.getLastD_eq_getLast?] at h
  rcases hlast : (holdersBelow c holds u).getLast? with _ | z
  · rw [List.getLast?_eq_none_iff] at hlast
    rw [hlast] at hmem
    cases hmem
  · rw [hlast, Option.getD_some] at h
    obtain ⟨l, hl⟩ := List.getLast?_eq_some_iff.mp hlast
    rw [hl, List.pairwise_append] at hsorted
    rw [hl, List.mem_append, List.mem_singleton] at hmem
    rcases hmem with hm | hm
    · have := hsorted.2.2 x hm z (List.mem_singleton.mpr rfl)
      omega
    · omega

lemma Back.chain {N : ℕ} (hN : 2 ≤ N) {up : ℕ} (hup : up ≤ N) {js : List ℕ}
    (h : Back c holds up js) :
    (backIdx up js ++ [up]).IsChain fun i j => Skips c holds i j ∧ j < i + N := by
  induction js generalizing up with
  | nil => exact List.isChain_singleton _
  | cons j js ih =>
    obtain ⟨h1, h2, h3, h4, h5⟩ := h
    have hlow := ih (by omega) h5
    have hnext : Skips c holds j (j + 1) ∧ j + 1 < j + N :=
      ⟨⟨Nat.lt_add_one j, fun x hx1 hx2 => by omega, Or.inl rfl⟩, by omega⟩
    rw [backIdx]
    by_cases hadj : j + 1 = up
    · subst hadj
      simp only [ne_eq, not_true_eq_false, if_false, List.append_nil]
      rw [List.append_assoc]
      exact List.isChain_append_cons_cons.mpr ⟨hlow, hnext, List.isChain_singleton _⟩
    · have hrun : Skips c holds (j + 1) up ∧ up < j + 1 + N :=
        ⟨⟨by omega, fun x hx1 hx2 => h4 x (by omega) hx2,
          Or.inr (h4 _ (Nat.lt_add_one j) (by omega))⟩, by omega⟩
      rw [if_pos hadj, List.append_assoc, List.append_assoc]
      refine List.isChain_append_cons_cons.mpr ⟨hlow, hnext, ?_⟩
      exact List.isChain_cons_cons.mpr ⟨hrun, List.isChain_singleton _⟩

end Behind

section Segment

variable {members : List Did} {declared : Did → Bool} {n : Did}

def ringNode (members : List Did) (declared : Did → Bool) (n : Did) (i : ℕ) : RelayNode :=
  ⟨ringAt members n i, declared (ringAt members n i)⟩

lemma heldBehind_eq_map : heldBehind members declared n =
    (holdersBelow (ringAt members n) declared (ringFrom members n).length).map
      (ringAt members n) := by
  rw [heldBehind, holdersBelow, clockwise_eq_map, ringFrom_length, Nat.add_sub_cancel, ← List.map_reverse,
    List.filter_map]
  rfl

lemma ringAt_ne {i j : ℕ} (hij : i < j) (hj : j < i + (ringFrom members n).length) :
    ringAt members n i ≠ ringAt members n j := fun he =>
  absurd (ringAt_cycle.inj i j hij.le hj he) (by omega)

lemma behind_eq (hn : n ∈ members) (hN : 2 ≤ (ringFrom members n).length)
    {nb : RelayNeighborhood} (hnb : Declared members declared nb) {up : ℕ}
    (hup : up ≤ (ringFrom members n).length) {js : List ℕ}
    (h : Back (ringAt members n) declared up js) :
    nb.behind n (ringAt members n up)
      ((js.map (ringAt members n)).map (relayLink members)) =
      (backIdx up js).map (ringNode members declared n) := by
  induction js generalizing up with
  | nil => rfl
  | cons j js ih =>
    obtain ⟨h1, h2, h3, h4, h5⟩ := h
    have hlink : relayLink members (ringAt members n j) =
        ⟨ringAt members n j, ringAt members n (j + 1)⟩ := by
      rw [relayLink, clockwise_ringAt_head? hn hN]
      rfl
    have hne : ringAt members n j ≠ n := by
      have := @ringAt_ne members n 0 j (by omega) (by omega)
      exact this.symm
    have hself : nb.chains (ringAt members n j) = declared (ringAt members n j) :=
      hnb.chains_eq (ringAt_mem hn j)
    rw [List.map_cons, List.map_cons, RelayNeighborhood.behind, hlink, backIdx, List.map_append,
      List.map_append, ih (by omega) h5, if_pos hne, hself]
    congr 1
    by_cases hadj : j + 1 = up
    · rw [hadj]
      simp
    · have hrun : ringAt members n (j + 1) ≠ ringAt members n up :=
        ringAt_ne (by omega) (by omega)
      rw [if_pos hrun, if_pos hadj]
      simp [ringNode, h4 (j + 1) (Nat.lt_add_one j) (by omega)]

lemma successors_eq_map {k : ℕ} {s : TopologyState} (h : ChordFixpoint members k s) :
    s.successors = (List.range' ((ringFrom members s.localDid).length + 1)
      (min k (clockwise members s.localDid).length)).map (ringAt members s.localDid) := by
  rw [h.successors, successors_eq_take]
  refine List.ext_getElem (by simp) fun i h1 h2 => ?_
  have hi : i < (clockwise members s.localDid).length := by
    rw [List.length_take] at h1
    omega
  rw [List.getElem_take, List.getElem_map, List.getElem_range',
    show (ringFrom members s.localDid).length + 1 + 1 * i =
      (i + 1) + (ringFrom members s.localDid).length by omega, ringAt_cycle.period,
    ringAt_of_lt (by rw [ringFrom_length]; omega)]
  rfl

lemma ahead_chain {c : ℕ → Did} {holds : Did → Bool} {N : ℕ} (hN : 2 ≤ N) (s k : ℕ) :
    (List.range' s k).IsChain fun i j => Skips c holds i j ∧ j < i + N := by
  refine List.isChain_iff_getElem.mpr fun i hi => ?_
  rw [List.getElem_range', List.getElem_range']
  exact ⟨⟨by omega, fun x h1 h2 => by omega, Or.inl (by omega)⟩, by omega⟩

/-- A segment that places a walk behind `n`, then `n` and its successors, walks the ring. -/
lemma walks_of_back {k : ℕ} (hk : k < (ringFrom members n).length)
    (hN : 2 ≤ (ringFrom members n).length) {B : List ℕ} {first : ℕ} {knows : Bool}
    (hchain : (B ++ [(ringFrom members n).length]).IsChain fun i j =>
      Skips (ringAt members n) declared i j ∧ j < i + (ringFrom members n).length)
    (hhead : (B ++ [(ringFrom members n).length]).head? = some first)
    (hwhole : knows = true → ∀ x, k < x → x < first → declared (ringAt members n x) = false) :
    Walks members n declared
      ⟨(B ++ List.range' (ringFrom members n).length (k + 1)).map (ringNode members declared n),
        false, knows⟩
      (B ++ List.range' (ringFrom members n).length (k + 1)) first
      ((ringFrom members n).length + k) where
  nodes := rfl
  steps := by
    rw [List.range'_succ]
    refine List.isChain_split.mpr ⟨hchain, ?_⟩
    rw [← List.range'_succ]
    exact ahead_chain hN _ _
  head := by
    rw [List.range'_succ]
    cases B with
    | nil => exact hhead
    | cons b B => exact hhead
  final := by
    rw [List.range'_1_concat, ← List.append_assoc, List.getLast?_concat]
  here := by simp [List.mem_range'_1]
  within := by omega
  endless := rfl
  whole := by
    intro hknows
    refine span_eq_nil fun i h1 h2 => ?_
    obtain ⟨x, rfl⟩ : ∃ x, i = x + (ringFrom members n).length :=
      ⟨i - (ringFrom members n).length, by omega⟩
    rw [ringAt_cycle.period]
    exact hwhole hknows x (by omega) (by omega)

variable {k : ℕ} {s : TopologyState} {nb : RelayNeighborhood}

lemma ringAt_length : ringAt members n (ringFrom members n).length = n := by
  have := @ringAt_cycle members n |>.period 0
  rwa [Nat.zero_add, ringAt_zero] at this

/-- The segment of a converged node with a neighbour, by what it places behind. -/
lemma segment_eq (hk : 1 ≤ k) (hfix : ChordFixpoint members k s) (hs : s.localDid ∈ members)
    (hN : 2 ≤ (ringFrom members s.localDid).length) (hnb : Declared members declared nb)
    {B : List ℕ} (hB : nb.back s = B.map (ringNode members declared s.localDid)) :
    nb.segment s (declared s.localDid) =
      ⟨(B ++ List.range' (ringFrom members s.localDid).length
        (min k (clockwise members s.localDid).length + 1)).map
          (ringNode members declared s.localDid), false, nb.wholeRing s⟩ := by
  have hsucc := successors_eq_map hfix
  have hne : s.successors.isEmpty = false := by
    rw [ringFrom_length] at hN
    rw [hsucc, List.isEmpty_eq_false_iff, Ne, List.map_eq_nil_iff, List.range'_eq_nil_iff]
    omega
  have hnodes : s.successors.map nb.node = (List.range' ((ringFrom members s.localDid).length + 1)
      (min k (clockwise members s.localDid).length)).map
        (ringNode members declared s.localDid) := by
    rw [hsucc, List.map_map]
    refine List.map_congr_left fun i _ => ?_
    simp only [Function.comp_apply, RelayNeighborhood.node, ringNode,
      hnb.chains_eq (ringAt_mem hs i)]
  have hlocal : (⟨s.localDid, declared s.localDid⟩ : RelayNode) =
      ringNode members declared s.localDid (ringFrom members s.localDid).length := by
    rw [ringNode, ringAt_length]
  simp only [RelayNeighborhood.segment, hne, Bool.false_eq_true, if_false]
  rw [hB, hnodes, hlocal, List.range'_succ, List.map_append, List.map_cons]
  cases nb.wholeRing s <;> simp [RelaySegment.new, RelaySegment.knowingEveryHolder]

lemma predecessor_eq_ringAt (hfix : ChordFixpoint members k s)
    (hN : 2 ≤ (ringFrom members s.localDid).length) :
    s.predecessor =
      some (ringAt members s.localDid ((ringFrom members s.localDid).length - 1)) := by
  rw [ringFrom_length] at hN ⊢
  obtain ⟨l, hl⟩ : ∃ l, (clockwise members s.localDid).length = l + 1 :=
    ⟨(clockwise members s.localDid).length - 1, by omega⟩
  rw [hfix.predecessor, predecessor_eq_getLast?, clockwise_eq_map, List.length_map,
    List.length_range', hl, List.range'_1_concat, List.map_append, List.map_singleton,
    List.getLast?_concat]
  congr 2
  omega

lemma covers_of_predecessor (hfix : ChordFixpoint members k s)
    (hN : 2 ≤ (ringFrom members s.localDid).length)
    (h : s.predecessor.any (· ∈ s.successors) = true) :
    (clockwise members s.localDid).length ≤ k := by
  rw [predecessor_eq_ringAt hfix hN, Option.any_some, decide_eq_true_eq, successors_eq_map hfix,
    List.mem_map] at h
  obtain ⟨i, hi, he⟩ := h
  rw [List.mem_range'_1] at hi
  by_contra hlt
  have hlen := @ringFrom_length members s.localDid
  have := ringAt_cycle.inj _ i (by omega) (by omega) he.symm
  omega

section Walks

variable (hk : 1 ≤ k) (hfix : ChordFixpoint members k s) (hs : s.localDid ∈ members)
  (hN : 2 ≤ (ringFrom members s.localDid).length) (hnb : Declared members declared nb)

include hk hfix hs hN hnb

/-- What is placed behind decides: a walk up to the node, from a first index below which no
holder is left out when the record closed. -/
lemma segment_walks_of_back {B : List ℕ} {first : ℕ}
    (hB : nb.back s = B.map (ringNode members declared s.localDid))
    (hchain : (B ++ [(ringFrom members s.localDid).length]).IsChain fun i j =>
      Skips (ringAt members s.localDid) declared i j ∧
        j < i + (ringFrom members s.localDid).length)
    (hhead : (B ++ [(ringFrom members s.localDid).length]).head? = some first)
    (hfirst : first ≤ (ringFrom members s.localDid).length)
    (hclosed : (nb.previousHoldersIn s).any (·.closed) = true → ∀ x, 1 ≤ x → x < first →
      declared (ringAt members s.localDid x) = false) :
    ∃ idx first last, Walks members s.localDid declared (nb.segment s (declared s.localDid)) idx
      first last := by
  have hlen := @ringFrom_length members s.localDid
  have hK : min k (clockwise members s.localDid).length < (ringFrom members s.localDid).length := by
    omega
  rw [segment_eq hk hfix hs hN hnb hB]
  refine ⟨_, _, _, walks_of_back hK hN hchain hhead fun hw x hx1 hx2 => ?_⟩
  rcases (Bool.or_eq_true _ _).mp hw with hw | hw
  · exact hclosed hw x (by omega) hx2
  · have := covers_of_predecessor hfix hN hw
    omega

lemma segment_walks_unpassed (hprev : nb.previousHoldersIn s = none) :
    ∃ idx first last, Walks members s.localDid declared (nb.segment s (declared s.localDid)) idx
      first last := by
  refine segment_walks_of_back hk hfix hs hN hnb
    (B := [(ringFrom members s.localDid).length - 1]) ?_ ?_ rfl (by omega) (by simp [hprev])
  · simp only [RelayNeighborhood.back, hprev, predecessor_eq_ringAt hfix hN]
    simp only [RelayNeighborhood.node, hnb.chains_eq (ringAt_mem hs _), List.map_singleton,
      ringNode]
  · exact List.isChain_cons_cons.mpr ⟨⟨⟨by omega, fun x h1 h2 => by omega, Or.inl (by omega)⟩,
      by omega⟩, List.isChain_singleton _⟩

lemma segment_walks_trail {P : Passed} (hprev : nb.previousHoldersIn s = some P)
    (hpre : P.previous <+: (heldBehind members declared s.localDid).map (relayLink members))
    (hclosed : P.closed = true →
      P.previous = (heldBehind members declared s.localDid).map (relayLink members)) :
    ∃ idx first last, Walks members s.localDid declared (nb.segment s (declared s.localDid)) idx
      first last := by
  rw [heldBehind_eq_map] at hpre hclosed
  obtain ⟨J, hJ⟩ : ∃ J, J = holdersBelow (ringAt members s.localDid) declared
      (ringFrom members s.localDid).length := ⟨_, rfl⟩
  rw [← hJ] at hpre hclosed
  have hbk : Back (ringAt members s.localDid) declared (ringFrom members s.localDid).length
      (J.take P.previous.length) := by
    rw [hJ]
    exact (back_holdersBelow _ le_rfl fun x h1 h2 => by omega).take _
  have htake : P.previous = ((J.take P.previous.length).map
      (ringAt members s.localDid)).map (relayLink members) := by
    rw [List.map_take, List.map_take]
    exact List.prefix_iff_eq_take.mp hpre
  refine segment_walks_of_back hk hfix hs hN hnb ?_ (hbk.chain hN le_rfl) (back_head? _ _)
    hbk.le fun hc x hx1 hx2 => ?_
  · have heq := behind_eq hs hN hnb le_rfl hbk
    rw [ringAt_length, ← htake] at heq
    simp only [RelayNeighborhood.back, hprev, heq]
  · rw [hprev, Option.any_some] at hc
    have hfull : J.take P.previous.length = J := by
      rw [hclosed hc, List.length_map, List.length_map, List.take_length]
    rw [hfull, hJ] at hx2
    exact holdersBelow_last hx1 hx2

/-- A node that is the only holder is passed its own link: its run is every other node. -/
lemma segment_walks_own {P : Passed} (hprev : nb.previousHoldersIn s = some P)
    (hsingle : P.previous = [relayLink members s.localDid])
    (hnone : heldBehind members declared s.localDid = []) :
    ∃ idx first last, Walks members s.localDid declared (nb.segment s (declared s.localDid)) idx
      first last := by
  have hfree : ∀ x, 1 ≤ x → x < (ringFrom members s.localDid).length →
      declared (ringAt members s.localDid x) = false := by
    intro x h1 h2
    by_contra hd
    rw [Bool.not_eq_false] at hd
    rw [heldBehind_eq_map, List.map_eq_nil_iff] at hnone
    exact List.ne_nil_of_mem (mem_holdersBelow.mpr ⟨⟨h1, h2⟩, hd⟩) hnone
  have hlink : relayLink members s.localDid = ⟨s.localDid, ringAt members s.localDid 1⟩ := by
    have := clockwise_ringAt_head? hs hN 0
    rw [ringAt_zero] at this
    rw [relayLink, this]
    rfl
  have hne : ringAt members s.localDid 1 ≠ s.localDid :=
    (@ringAt_ne members s.localDid 0 1 (by omega) (by omega)).symm
  have hrun : Skips (ringAt members s.localDid) declared 1 (ringFrom members s.localDid).length :=
    ⟨by omega, fun x h1 h2 => hfree x (by omega) h2, Or.inr (hfree 1 le_rfl (by omega))⟩
  refine segment_walks_of_back hk hfix hs hN hnb (B := [1]) ?_ ?_ rfl (by omega)
    fun _ x h1 h2 => by omega
  · simp only [RelayNeighborhood.back, hprev, hsingle, hlink]
    simp [RelayNeighborhood.behind, hne, ringNode, hfree 1 le_rfl (by omega)]
  · exact List.isChain_cons_cons.mpr ⟨⟨hrun, by omega⟩, List.isChain_singleton _⟩

/-- **The segment of a converged node walks the ring**, whatever records it was passed. -/
lemma segment_walks (hP : ∀ P, nb.passed = some P → PassedOk members declared s.localDid P) :
    ∃ idx first last, Walks members s.localDid declared (nb.segment s (declared s.localDid)) idx
      first last := by
  rcases hprev : nb.previousHoldersIn s with _ | P
  · exact segment_walks_unpassed hk hfix hs hN hnb hprev
  · rcases hP P (previousHoldersIn_eq_some hprev) with ⟨hpre, hclosed⟩ | ⟨hsingle, hnone, -⟩
    · exact segment_walks_trail hk hfix hs hN hnb hprev hpre hclosed
    · exact segment_walks_own hk hfix hs hN hnb hprev hsingle hnone

end Walks

end Segment

/-! ### The global answer -/

/-- The owner of `key`: the nearest member strictly before it, the key's own member counting as
a whole turn before. -/
def keyOwner (members : List Did) (key : Did) : Option Did :=
  members.argmin fun o => if o = key then 2 ^ 160 else dist o key

def globalHolders (members : List Did) (declared : Did → Bool) (key : Did) : List Did :=
  (keyOwner members key).elim [] fun o => (ringFrom members o).filter declared

section Agreement

variable {members : List Did} {declared : Did → Bool} {n key : Did}

lemma keyOwner_eq (hn : n ∈ members) {m : ℕ}
    (h : inArc (ringAt members n m) key (ringAt members n (m + 1)) = true) :
    keyOwner members key = some (ringAt members n m) := by
  rw [inArc_iff] at h
  have hm := ringAt_mem hn m
  -- every other member is farther from the key
  have hfar : ∀ o ∈ members, o ≠ ringAt members n m →
      dist (ringAt members n m) key < if o = key then 2 ^ 160 else dist o key := by
    intro o ho hne
    split
    · exact dist_lt _ _
    · rename_i hok
      obtain ⟨j, hj1, hj2, rfl⟩ : ∃ j, m < j ∧ j < m + (ringFrom members n).length ∧
          ringAt members n j = o := by
        have hmem := (mem_ringFrom hm).mpr ho
        rw [ringFrom_ringAt hn, List.mem_map] at hmem
        obtain ⟨j, hj, rfl⟩ := hmem
        rw [List.mem_range'_1] at hj
        refine ⟨j, lt_of_le_of_ne hj.1 ?_, hj.2, rfl⟩
        rintro rfl
        exact hne rfl
      have h1 : dist (ringAt members n m) (ringAt members n (m + 1)) ≤
          dist (ringAt members n m) (ringAt members n j) := by
        rcases Nat.eq_or_lt_of_le (show m + 1 ≤ j from hj1) with he | hlt
        · rw [he]
        · exact (ringAt_dist_lt hn (by omega) hlt hj2).le
      have h2 : dist (ringAt members n m) (ringAt members n j) ≠
          dist (ringAt members n m) key := fun he => hok (dist_inj.mp he)
      rcases dist_detour (ringAt members n m) (ringAt members n j) key with ⟨h3, -⟩ | ⟨-, h3⟩
      · omega
      · have := dist_lt (ringAt members n m) (ringAt members n j)
        omega
  unfold keyOwner
  rcases ha : members.argmin fun o => if o = key then 2 ^ 160 else dist o key with _ | a
  · rw [List.argmin_eq_none] at ha
    rw [ha] at hm
    cases hm
  · by_contra hne
    have hle := List.le_of_mem_argmin hm ha
    have hlt := hfar a (List.argmin_mem ha) fun he => hne (by rw [he])
    rw [if_neg h.1.symm] at hle
    omega

lemma keyOwner_alone (hn : n ∈ members) (h : ∀ m ∈ members, m = n) :
    keyOwner members key = some n := by
  unfold keyOwner
  rcases ha : members.argmin fun o => if o = key then 2 ^ 160 else dist o key with _ | a
  · rw [List.argmin_eq_none] at ha
    rw [ha] at hn
    cases hn
  · rw [h a (List.argmin_mem ha)]

/-- **What a segment collects is global.** At a placed key, the first distinct holders of the
segment are the first holders of the ring from the owner on. -/
lemma segment_collects {k : ℕ} {s : TopologyState} {nb : RelayNeighborhood} (hk : 1 ≤ k)
    (hfix : ChordFixpoint members k s) (hs : s.localDid ∈ members)
    (hnb : Declared members declared nb)
    (hP : ∀ P, nb.passed = some P → PassedOk members declared s.localDid P) {a : ℕ}
    (ha : (nb.segment s (declared s.localDid)).ownerIndex key = some a) (r : ℕ) :
    collectDistinct r [] ((((nb.segment s (declared s.localDid)).clockwiseFrom a).filter
      (·.holds)).map (·.did)) <+: (globalHolders members declared key).take r := by
  rcases Nat.lt_or_ge (ringFrom members s.localDid).length 2 with hN | hN
  · -- a ring of one: no neighbours, no records, and the segment closes on the node itself
    have hnil : clockwise members s.localDid = [] := by
      rw [ringFrom_length] at hN
      exact List.length_eq_zero_iff.mp (by omega)
    have hsucc : s.successors = [] := by
      rw [hfix.successors, successors_eq_take, hnil, List.take_nil]
    have hpred : s.predecessor = none := by
      rw [hfix.predecessor, predecessor_eq_getLast?, hnil]
      rfl
    have hprev : nb.previousHoldersIn s = none := by
      rw [RelayNeighborhood.previousHoldersIn, hpred]
      cases nb.passed <;> rfl
    have hseg : nb.segment s (declared s.localDid) =
        .closing [⟨s.localDid, declared s.localDid⟩] := by
      simp [RelayNeighborhood.segment, RelayNeighborhood.back, hsucc, hpred, hprev]
    have hown : keyOwner members key = some s.localDid := by
      refine keyOwner_alone hs fun m hm => ?_
      by_contra hne
      have := mem_clockwise.mpr ⟨hm, hne⟩
      rw [hnil] at this
      cases this
    have ha0 : a = 0 := by
      rw [hseg] at ha
      simpa [RelaySegment.ownerIndex, RelaySegment.closing, eq_comm] using ha
    subst ha0
    have hglobal : globalHolders members declared key = [s.localDid].filter declared := by
      rw [globalHolders, hown, Option.elim_some, ringFrom, hnil]
    have hlist : (((nb.segment s (declared s.localDid)).clockwiseFrom 0).filter (·.holds)).map
        (·.did) = [s.localDid].filter declared := by
      rw [hseg]
      cases hd : declared s.localDid <;>
        simp [RelaySegment.clockwiseFrom, RelaySegment.closing, hd]
    rw [hlist, hglobal, collectDistinct_nodup ((List.nodup_singleton _).filter _)]
  · obtain ⟨idx, first, last, hwalk⟩ := segment_walks hk hfix hs hN hnb hP
    obtain ⟨m, harc, hcollect⟩ := hwalk.collect hs ha
    have hglobal : globalHolders members declared key =
        span (ringAt members s.localDid) declared m
          (m + (ringFrom members s.localDid).length) := by
      rw [globalHolders, keyOwner_eq hs harc, Option.elim_some, ringFrom_ringAt hs, span,
        Nat.add_sub_cancel_left]
    rw [hglobal]
    exact hcollect r

lemma prefix_collectDistinct {α : Type*} [DecidableEq α] (r : ℕ) (l acc : List α) :
    acc <+: collectDistinct r acc l := by
  induction l generalizing acc with
  | nil => exact List.prefix_refl _
  | cons x l ih =>
    rw [collectDistinct]
    split
    · exact List.prefix_refl _
    · split
      · exact ih acc
      · exact (List.prefix_append acc [x]).trans (ih _)

lemma relayHolder_holder {seg : RelaySegment} {h : Did} (hh : relayHolder seg key = .holder h) :
    ∃ a rest, seg.ownerIndex key = some a ∧
      ((seg.clockwiseFrom a).filter (·.holds)).map (·.did) = h :: rest := by
  unfold relayHolder at hh
  split at hh
  · cases hh
  · rename_i a ha
    refine ⟨a, ?_⟩
    split at hh
    · cases hh
    · rename_i node hnode
      obtain rfl := RelayHolder.holder.inj hh
      rw [← List.head?_filter] at hnode
      obtain ⟨rest, hrest⟩ := List.head?_eq_some_iff.mp hnode
      exact ⟨rest.map (·.did), ha, by rw [hrest]; rfl⟩

lemma chainPosition_rank {seg : RelaySegment} {r : ℕ} {ms : List Did} (loc : Did)
    (h : relayMembers seg key r = .members ms) :
    (chainPosition seg key loc r).map (·.rank) = ms.findIdx? (· = loc) := by
  simp [chainPosition, h, Function.comp_def]

end Agreement

/-- **Relay agreement.** On a converged ring with known declarations, at every stage of record
spreading: where a node's segment names a holder, that is the first holder at or after the
key's owner on the whole ring; the members it names are the first of the global member list;
and the node finds itself in the chain exactly when it is among them, at its global rank. -/
theorem relay_agreement (members : List Did) (k : ℕ) (hk : 1 ≤ k) (view : Did → TopologyState)
    (hview : ∀ n, (view n).localDid = n) (hfix : ∀ m ∈ members, ChordFixpoint members k (view m))
    (declared : Did → Bool) (r : ℕ) (hr : 1 ≤ r) (es : List RelayEvent) (n : Did)
    (hn : n ∈ members) (key h : Did) :
    let seg := ((relayRun members view declared r es).neighborhood n).segment (view n) (declared n)
    let global := (globalHolders members declared key).take r
    relayHolder seg key = .holder h →
      (globalHolders members declared key).head? = some h ∧
      (∃ ms, relayMembers seg key r = .members ms ∧ ms <+: global ∧
        (chainPosition seg key n r = none ↔ n ∉ ms)) ∧
      ∀ pos, chainPosition seg key n r = some pos → global.findIdx? (· = n) = some pos.rank := by
  intro seg global hh
  have hinv : RelayInv members declared (relayRun members view declared r es) :=
    relayInv_run hk hview hfix r es
  have hloc := hview n
  obtain ⟨a, rest, ha, hlist⟩ := relayHolder_holder hh
  have hcollect : ∀ r, collectDistinct r [] (h :: rest) <+:
      (globalHolders members declared key).take r := by
    intro r'
    have := @segment_collects _ _ key _ _ _ hk (hfix n hn) (by rwa [hloc]) (hinv.known n)
      (fun P hP => by rw [hloc]; exact hinv.passed n hn P hP) a (by rw [hloc]; exact ha) r'
    rw [hloc] at this
    rwa [← hlist]
  have hone : collectDistinct 1 [] (h :: rest) = [h] := by
    rw [collectDistinct, if_neg (by simp), if_neg (by simp), List.nil_append]
    exact collectDistinct_full [h] rest
  have hms : h ∈ collectDistinct r [] (h :: rest) := by
    rw [collectDistinct, if_neg (by simp; omega), if_neg (by simp), List.nil_append]
    exact (prefix_collectDistinct r rest [h]).subset (List.mem_singleton.mpr rfl)
  have hmembers : relayMembers seg key r = .members (collectDistinct r [] (h :: rest)) := by
    unfold relayMembers
    rw [ha]
    dsimp only
    rw [hlist, if_neg]
    rw [List.isEmpty_iff]
    exact List.ne_nil_of_mem hms
  have hrank := chainPosition_rank n hmembers
  refine ⟨?_, ⟨_, hmembers, hcollect r, ?_⟩, ?_⟩
  · obtain ⟨t, ht⟩ := hcollect 1
    rw [hone] at ht
    rcases hg : globalHolders members declared key with _ | ⟨g, l⟩
    · rw [hg] at ht
      cases ht
    · rw [hg, List.singleton_append] at ht
      rw [List.head?_cons, (List.cons.inj ht).1]
  · rw [← Option.map_eq_none_iff (f := ChainPosition.rank), hrank, List.findIdx?_eq_none_iff]
    constructor
    · intro hall hmem
      simpa using hall n hmem
    · intro hnot x hx
      simp only [decide_eq_false_iff_not]
      rintro rfl
      exact hnot hx
  · intro pos hp
    rw [hp, Option.map_some] at hrank
    obtain ⟨t, ht⟩ := hcollect r
    have hglobal : global = collectDistinct r [] (h :: rest) ++ t := ht.symm
    rw [hglobal, List.findIdx?_append, ← hrank]
    rfl

/-- The ring of `10`, `20`, `30`, `40` and `50` before any record is passed, with mail at `10`
and `30` only: node `10` names `30` as the holder of `25` and finds no place for itself, though
it is the second member. -/
theorem chain_position_beyond_view :
    let members : List Did := [10, 20, 30, 40, 50]
    let declared : Did → Bool := fun d => d = 10 ∨ d = 30
    let view := converged members 2 0
    let seg := ((relayRun members view declared 2 []).neighborhood 10).segment (view 10)
      (declared 10)
    relayHolder seg 25 = .holder 30 ∧ chainPosition seg 25 10 2 = none ∧
      ((globalHolders members declared 25).take 2).findIdx? (· = 10) = some 1 := by
  decide

/-- On the same ring, after `30`, `40` and `50` have passed their records, node `10` has its
rank. -/
theorem relay_agreement_five :
    let members : List Did := [10, 20, 30, 40, 50]
    let declared : Did → Bool := fun d => d = 10 ∨ d = 30
    let view := converged members 2 0
    let es : List RelayEvent := [.send 30, .deliver 0, .send 40, .deliver 1, .send 50, .deliver 2]
    let seg := ((relayRun members view declared 2 es).neighborhood 10).segment (view 10)
      (declared 10)
    relayHolder seg 45 = .holder 10 ∧ (globalHolders members declared 45).head? = some 10 := by
  intro members declared view es seg
  have h : relayHolder seg 45 = .holder 10 := by decide
  exact ⟨h, (relay_agreement members 2 (by decide) view (fun _ => rfl)
    (fun _ _ => converged_fixpoint ..) declared 2 (by decide) es 10 (by decide) 45 10 h).1⟩

end Rings
