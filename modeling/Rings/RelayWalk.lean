import Rings.RelayHolder
import Rings.RingCycle

/-!
A relay segment as a walk on the ring.

The nodes of a segment are ring members at increasing indices, and the indices left out are
members without relay mail. The first arc that holds a key then names an index from which the
walk meets exactly the holders that follow the key's owner.
-/

namespace Rings

variable {members : List Did} {n key : Did}

/-! ### Arcs -/

lemma inArc_iff {a b : Did} : inArc a key b = true ↔ key ≠ a ∧ dist a key ≤ dist a b := by
  simp [inArc]

lemma inArc_step (hn : n ∈ members) {i j : ℕ} (hij : i < j)
    (hj : j < i + (ringFrom members n).length)
    (h : inArc (ringAt members n i) key (ringAt members n j) = true) :
    ∃ m, i ≤ m ∧ m < j ∧ inArc (ringAt members n m) key (ringAt members n (m + 1)) = true := by
  induction j, hij using Nat.le_induction with
  | base => exact ⟨i, le_refl i, Nat.lt_add_one i, h⟩
  | succ j hij ih =>
    rw [inArc_iff] at h
    by_cases hle : dist (ringAt members n i) key ≤ dist (ringAt members n i) (ringAt members n j)
    · obtain ⟨m, h1, h2, h3⟩ := ih (by omega) (inArc_iff.mpr ⟨h.1, hle⟩)
      exact ⟨m, h1, by omega, h3⟩
    · have hlt := ringAt_dist_lt hn (show i ≤ j by omega) (Nat.lt_add_one j) hj
      have h1 := dist_add_of_le (Nat.le_of_not_le hle)
      have h2 := dist_add_of_le hlt.le
      refine ⟨j, by omega, Nat.lt_add_one j, inArc_iff.mpr ⟨?_, by omega⟩⟩
      exact (dist_pos.mp (by omega)).symm

lemma inArc_around (hn : n ∈ members) {i m j : ℕ} (him : i ≤ m) (hmj : m < j)
    (hj : j < i + (ringFrom members n).length)
    (h : inArc (ringAt members n m) key (ringAt members n (m + 1)) = true) :
    inArc (ringAt members n i) key (ringAt members n j) = true := by
  rw [inArc_iff] at h ⊢
  have hpos := dist_pos.mpr h.1.symm
  have h1 := ringAt_dist_lt hn him (Nat.lt_add_one m) (by omega)
  have h2 := dist_add_of_le h1.le
  have h3 : dist (ringAt members n i) (ringAt members n (m + 1)) ≤
      dist (ringAt members n i) (ringAt members n j) := by
    rcases Nat.eq_or_lt_of_le (Nat.succ_le_of_lt hmj) with he | hlt
    · rw [← he]
    · exact (ringAt_dist_lt hn (by omega) hlt hj).le
  have h4 := dist_lt (ringAt members n i) (ringAt members n (m + 1))
  rcases dist_detour (ringAt members n i) (ringAt members n m) key with ⟨-, h5⟩ | ⟨h5, h6⟩
  · exact ⟨(dist_pos.mp (by omega)).symm, by omega⟩
  · omega

/-- An increasing list steps over every value between two of its entries. -/
lemma exists_step_over {l : List ℕ} (hl : l.IsChain (· < ·)) {q x : ℕ}
    (hhead : ∀ a, l.head? = some a → a ≤ q) (hx : x ∈ l) (hq : q < x) :
    ∃ a u v, l[a]? = some u ∧ l[a + 1]? = some v ∧ u ≤ q ∧ q < v ∧ v ≤ x := by
  induction l with
  | nil => cases hx
  | cons y l ih =>
    have hy := hhead y rfl
    have hxl : x ∈ l := by
      rcases List.mem_cons.mp hx with rfl | h
      · omega
      · exact h
    cases l with
    | nil => cases hxl
    | cons z l =>
      obtain ⟨hyz, htail⟩ := List.isChain_cons_cons.mp hl
      rcases Nat.lt_or_ge q z with hz | hz
      · refine ⟨0, y, z, rfl, rfl, hy, hz, ?_⟩
        rcases List.mem_cons.mp hxl with rfl | h
        · exact le_refl _
        · exact (List.rel_of_pairwise_cons (List.isChain_iff_pairwise.mp htail) h).le
      · obtain ⟨a, u, v, hu, hv, h1, h2, h3⟩ := ih htail
          (fun a ha => by obtain rfl := Option.some.inj ha; exact hz) hxl
        exact ⟨a + 1, u, v, by simpa using hu, by simpa using hv, h1, h2, h3⟩

/-! ### Segments that walk the ring -/

/-- The segment walks the ring of `n` over the indices `idx`, from `first` to `last`. Index
`N` stands for `n` itself, the lower ones for the nodes behind it. -/
structure Walks (members : List Did) (n : Did) (holds : Did → Bool) (seg : RelaySegment)
    (idx : List ℕ) (first last : ℕ) : Prop where
  nodes : seg.nodes = idx.map fun i => ⟨ringAt members n i, holds (ringAt members n i)⟩
  steps : idx.IsChain fun i j => Skips (ringAt members n) holds i j ∧
    j < i + (ringFrom members n).length
  head : idx.head? = some first
  final : idx.getLast? = some last
  here : (ringFrom members n).length ∈ idx
  within : last < 2 * (ringFrom members n).length
  endless : seg.closes = false
  whole : seg.knowsEveryHolder = true →
    span (ringAt members n) holds (last + 1) (first + (ringFrom members n).length) = []

section Walk

variable {holds : Did → Bool} {seg : RelaySegment} {idx : List ℕ} {first last : ℕ}

lemma nodes_holders (c : ℕ → Did) (l : List ℕ) :
    ((l.map fun i => (⟨c i, holds (c i)⟩ : RelayNode)).filter (·.holds)).map (·.did) =
      (l.map c).filter holds := by
  simp [List.filter_map, Function.comp_def]

lemma Walks.ownerIndex_spec (h : Walks members n holds seg idx first last) {a : ℕ}
    (ha : seg.ownerIndex key = some a) :
    ∃ i j, idx[a]? = some i ∧ idx[a + 1]? = some j ∧
      inArc (ringAt members n i) key (ringAt members n j) = true ∧
      ∀ b u v, b < a → idx[b]? = some u → idx[b + 1]? = some v →
        inArc (ringAt members n u) key (ringAt members n v) = false := by
  have hfind : (seg.nodes.zip seg.nodes.tail).findIdx?
      (fun arc => inArc arc.1.did key arc.2.did) = some a := by
    unfold RelaySegment.ownerIndex at ha
    split at ha
    · rename_i o ho
      rw [ho, Option.some.inj ha]
    · exfalso
      split at ha
      · rw [h.endless] at ha
        simp at ha
      · cases ha
  have hwin : ∀ b u v, idx[b]? = some u → idx[b + 1]? = some v →
      (seg.nodes.zip seg.nodes.tail)[b]? =
        some (⟨ringAt members n u, holds (ringAt members n u)⟩,
          ⟨ringAt members n v, holds (ringAt members n v)⟩) := by
    intro b u v hu hv
    rw [List.getElem?_zip_eq_some, List.getElem?_tail, h.nodes]
    simp [hu, hv]
  obtain ⟨hlt, hp, hmin⟩ := List.findIdx?_eq_some_iff_getElem.mp hfind
  have hlen : a + 1 < idx.length := by
    have := hlt
    rw [List.length_zip, List.length_tail, h.nodes, List.length_map] at this
    omega
  refine ⟨idx[a], idx[a + 1], List.getElem?_eq_getElem _, List.getElem?_eq_getElem _, ?_, ?_⟩
  · have hget := hwin a _ _ (List.getElem?_eq_getElem (by omega)) (List.getElem?_eq_getElem hlen)
    rw [List.getElem?_eq_getElem hlt] at hget
    rw [Option.some.inj hget] at hp
    exact hp
  · intro b u v hb hu hv
    have hget := hwin b u v hu hv
    rw [List.getElem?_eq_getElem (by omega)] at hget
    have := hmin b hb
    rw [Option.some.inj hget] at this
    simpa using this

/-- **A walk names the holders after the owner.** Where the segment places the key, the members
it collects are the first holders of the turn from the owner's index. -/
lemma Walks.collect (hn : n ∈ members) (h : Walks members n holds seg idx first last) {a : ℕ}
    (ha : seg.ownerIndex key = some a) :
    ∃ m, inArc (ringAt members n m) key (ringAt members n (m + 1)) = true ∧
      ∀ r, collectDistinct r [] (((seg.clockwiseFrom a).filter (·.holds)).map (·.did)) <+:
        (span (ringAt members n) holds m (m + (ringFrom members n).length)).take r := by
  obtain ⟨i, j, hi, hj, harc, hmin⟩ := h.ownerIndex_spec ha
  have hlt : idx.IsChain (· < ·) := h.steps.imp fun _ _ hs => hs.1.1
  have hskip : idx.IsChain (Skips (ringAt members n) holds) := h.steps.imp fun _ _ hs => hs.1
  have hpw := List.isChain_iff_pairwise.mp hlt
  have hcyc := @ringAt_cycle members n
  obtain ⟨ha1, rfl⟩ := List.getElem?_eq_some_iff.mp hi
  obtain ⟨ha2, rfl⟩ := List.getElem?_eq_some_iff.mp hj
  -- the owner's own index within the window
  have hstep := List.isChain_iff_getElem.mp h.steps a ha2
  obtain ⟨m, him, hmj, hm⟩ := inArc_step hn hstep.1.1 hstep.2 harc
  have hempty : span (ringAt members n) holds idx[a] m = [] := by
    refine span_eq_nil fun x h1 h2 => ?_
    rcases Nat.eq_or_lt_of_le h1 with he | hlt'
    · rcases hstep.1.2.2 with hs | hs
      · omega
      · rwa [← he]
    · exact hstep.1.2.1 x hlt' (by omega)
  have hsame : ∀ e, m ≤ e → span (ringAt members n) holds idx[a] e =
      span (ringAt members n) holds m e := by
    intro e he
    rw [← span_append him he, hempty, List.nil_append]
  have hlast : idx[a + 1] ≤ last := by
    obtain ⟨l, hl⟩ := List.getLast?_eq_some_iff.mp h.final
    have hmem : idx[a + 1] ∈ l ++ [last] := hl ▸ List.getElem_mem ha2
    rw [hl] at hpw
    rcases List.mem_append.mp hmem with hm' | hm'
    · exact ((List.pairwise_append.mp hpw).2.2 _ hm' last (by simp)).le
    · rw [List.mem_singleton.mp hm']
  refine ⟨m, hm, fun r => ?_⟩
  -- what the segment lists from the owner on
  have hdrop : ((idx.drop a).map (ringAt members n)).filter holds =
      span (ringAt members n) holds m (last + 1) := by
    rw [walk_filter (a := idx[a]) (b := last) ?_ ?_ ?_, hsame _ (by omega)]
    · exact hskip.drop a
    · rw [List.head?_drop, hi]
    · rw [List.getLast?_drop, if_neg (by omega), h.final]
  have hlist : ∀ w, ((seg.nodes.drop a ++ seg.nodes.take w).filter (·.holds)).map (·.did) =
      span (ringAt members n) holds m (last + 1) ++
        ((idx.take w).map (ringAt members n)).filter holds := by
    intro w
    rw [List.filter_append, List.map_append, h.nodes, ← List.map_drop, ← List.map_take,
      nodes_holders, nodes_holders, hdrop]
  unfold RelaySegment.clockwiseFrom
  rw [h.endless, Bool.false_or]
  split
  · rename_i hknows
    have htake : ((idx.take a).map (ringAt members n)).filter holds =
        span (ringAt members n) holds first m := by
      have hsplit : idx.take a ++ [idx[a]] = idx.take (a + 1) := by
        rw [List.take_add_one, hi, Option.toList_some]
      have hfirst : (idx.take a ++ [idx[a]]).head? = some first := by
        rw [hsplit, List.head?_take, if_neg (by omega), h.head]
      have hle : first ≤ idx[a] := walk_head_le hskip h.head (List.getElem_mem ha1)
      rw [walk_filter_take (b := idx[a]) (by rw [hsplit]; exact hskip.take _) hfirst,
        ← span_append hle him, hempty, List.append_nil]
    have hle : first ≤ idx[a] := walk_head_le hskip h.head (List.getElem_mem ha1)
    rw [hlist, htake, hcyc.collect_wrapped r (by omega) ?_ (by omega) (h.whole hknows)]
    -- an owner more than a turn past the first node would have been found behind `n`
    by_contra hgt
    have hwithin := h.within
    obtain ⟨q, rfl⟩ : ∃ q, m = q + (ringFrom members n).length :=
      ⟨m - (ringFrom members n).length, by omega⟩
    have hq : inArc (ringAt members n q) key (ringAt members n (q + 1)) = true := by
      rwa [hcyc.period, show q + (ringFrom members n).length + 1 =
        (q + 1) + (ringFrom members n).length by omega, hcyc.period] at hm
    obtain ⟨b, u, v, hu, hv, huq, hqv, hvN⟩ := exists_step_over hlt (q := q)
      (fun f hf => by rw [h.head] at hf; obtain rfl := Option.some.inj hf; omega) h.here (by omega)
    obtain ⟨hb1, rfl⟩ := List.getElem?_eq_some_iff.mp hu
    obtain ⟨hb2, rfl⟩ := List.getElem?_eq_some_iff.mp hv
    have hbstep := List.isChain_iff_getElem.mp h.steps b hb2
    have hfound := inArc_around hn huq hqv hbstep.2 hq
    have hba : b < a := by
      by_contra hge
      rcases Nat.eq_or_lt_of_le (Nat.le_of_not_lt hge) with he | hlt'
      · subst he
        omega
      · have := List.pairwise_iff_getElem.mp hpw (a + 1) (b + 1) ha2 hb2 (by omega)
        omega
    rw [hmin b _ _ hba hu hv] at hfound
    cases hfound
  · rw [hlist, List.take_zero, List.map_nil, List.filter_nil, List.append_nil]
    exact hcyc.collect_open r

end Walk

end Rings
