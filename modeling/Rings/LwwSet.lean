import Rings.BTreeMap
import Rings.Newest
import Mathlib.Order.UpperLower.Basic

/-!
Last-writer-wins element sets under caps.

A set holds adds and removes, each a key with its dot, and a floor, the upper set of the dots
that stand. In the union of two sets the visible adds are the latest of their key that stand
and that no remove covers. A merge keeps the newest visible adds and the newest standing
removes up to two caps, and the caps are what can break it: an add dropped by one merge is
missing when a later remove makes room, and a remove dropped by one merge covers nothing in
the next. Merging three sets in any order gives one result exactly when neither happens.
-/

namespace Rings

section Latest

variable {K D : Type*} [LinearOrder K] [LinearOrder D]

def dotOf (q : D ×ₗ K) : D := (ofLex q).1

def keyOf (q : D ×ₗ K) : K := (ofLex q).2

variable {s t : Finset (D ×ₗ K)} {p q : D ×ₗ K}

lemma dotOf_le_dotOf (h : p ≤ q) : dotOf p ≤ dotOf q := by
  rcases Prod.Lex.le_iff.1 h with h | h
  · exact h.le
  · exact h.1.le

lemma le_of_dotOf_le (hk : keyOf p = keyOf q) (h : dotOf p ≤ dotOf q) : p ≤ q := by
  rcases h.lt_or_eq with h | h
  · exact Prod.Lex.le_iff.2 (Or.inl h)
  · exact Prod.Lex.le_iff.2 (Or.inr ⟨h, hk.le⟩)

def latest (s : Finset (D ×ₗ K)) : Finset (D ×ₗ K) :=
  s.filter fun q => ∀ p ∈ s, keyOf p = keyOf q → p ≤ q

lemma mem_latest : q ∈ latest s ↔ q ∈ s ∧ ∀ p ∈ s, keyOf p = keyOf q → p ≤ q := by
  simp [latest]

/-- A latest pair of a set is the latest of every smaller set that holds it. -/
lemma mem_latest_of_subset (h : q ∈ latest s) (hts : t ⊆ s) (hq : q ∈ t) : q ∈ latest t :=
  mem_latest.2 ⟨hq, fun p hp => (mem_latest.1 h).2 p (hts hp)⟩

lemma eq_of_mem_latest (hp : p ∈ latest s) (hq : q ∈ latest s) (h : keyOf p = keyOf q) : p = q :=
  ((mem_latest.1 hq).2 p (mem_latest.1 hp).1 h).antisymm
    ((mem_latest.1 hp).2 q (mem_latest.1 hq).1 h.symm)

lemma exists_latest (h : q ∈ s) : ∃ p ∈ latest s, keyOf p = keyOf q ∧ q ≤ p := by
  obtain ⟨p, hp, hmax⟩ := (s.filter fun p => keyOf p = keyOf q).exists_max_image id
    ⟨q, Finset.mem_filter.2 ⟨h, rfl⟩⟩
  rw [Finset.mem_filter] at hp
  refine ⟨p, mem_latest.2 ⟨hp.1, fun p' hp' hk => ?_⟩, hp.2, ?_⟩
  · exact hmax p' (Finset.mem_filter.2 ⟨hp', hk.trans hp.2⟩)
  · exact hmax q (Finset.mem_filter.2 ⟨h, rfl⟩)

/-- Counting by keys: where every pair above `x` has a later pair of its key, there are at least
as many pairs above `x`. -/
lemma above_le_above_of_keys {x : D ×ₗ K} (hs : ∀ p ∈ s, ∀ q ∈ s, keyOf p = keyOf q → p = q)
    (h : ∀ p ∈ s, x < p → ∃ q ∈ t, keyOf q = keyOf p ∧ p ≤ q) : above s x ≤ above t x := by
  have hinj : Set.InjOn keyOf (s.filter (x < ·) : Finset (D ×ₗ K)) := fun p hp q hq hk =>
    hs p (Finset.mem_filter.1 hp).1 q (Finset.mem_filter.1 hq).1 hk
  have hsub : (s.filter (x < ·)).image keyOf ⊆ (t.filter (x < ·)).image keyOf := by
    intro k hk
    obtain ⟨p, hp, rfl⟩ := Finset.mem_image.1 hk
    rw [Finset.mem_filter] at hp
    obtain ⟨q, hq, hkey, hle⟩ := h p hp.1 hp.2
    exact Finset.mem_image.2 ⟨q, Finset.mem_filter.2 ⟨hq, hp.2.trans_le hle⟩, hkey⟩
  calc above s x = ((s.filter (x < ·)).image keyOf).card := (Finset.card_image_of_injOn hinj).symm
    _ ≤ ((t.filter (x < ·)).image keyOf).card := Finset.card_le_card hsub
    _ ≤ above t x := Finset.card_image_le

end Latest

/-! ### Maps as sets of pairs -/

section Maps

variable {K D : Type*}

def byDot (p : K × D) : D ×ₗ K := toLex (p.2, p.1)

lemma byDot_injective : Function.Injective (byDot : K × D → D ×ₗ K) := by
  rintro ⟨k, d⟩ ⟨k', d'⟩ h
  have h' : (d, k) = (d', k') := toLex.injective h
  rw [Prod.mk.injEq] at h'
  rw [h'.1, h'.2]

variable [LinearOrder K] [LinearOrder D]

def pairSet (l : List (K × D)) : Finset (D ×ₗ K) := (l.map byDot).toFinset

lemma mem_pairSet {l : List (K × D)} {q : D ×ₗ K} :
    q ∈ pairSet l ↔ (keyOf q, dotOf q) ∈ l := by
  rw [pairSet, List.mem_toFinset, List.mem_map]
  constructor
  · rintro ⟨p, hp, rfl⟩
    exact hp
  · exact fun h => ⟨_, h, rfl⟩

lemma card_pairSet_le (l : List (K × D)) : (pairSet l).card ≤ l.length :=
  (List.toFinset_card_le _).trans (List.length_map _).le

lemma card_pairSet {l : List (K × D)} (h : (l.map byDot).Nodup) : (pairSet l).card = l.length := by
  rw [pairSet, List.toFinset_card_of_nodup h, List.length_map]

/-- The pairs of a join are the latest pairs of both maps. -/
lemma pairSet_join (m n : BTreeMap K D) :
    pairSet (m.join n).entries = latest (pairSet m.entries ∪ pairSet n.entries) := by
  ext q
  rw [mem_pairSet, BTreeMap.mem_entries, BTreeMap.get?_join, omax_eq_some, mem_latest,
    Finset.mem_union, mem_pairSet, mem_pairSet, BTreeMap.mem_entries, BTreeMap.mem_entries]
  refine and_congr_right fun _ => ?_
  have hiff : ∀ m : BTreeMap K D, (∀ d, m.get? (keyOf q) = some d → d ≤ dotOf q) ↔
      ∀ p ∈ pairSet m.entries, keyOf p = keyOf q → p ≤ q := by
    intro m
    constructor
    · intro h p hp hk
      refine le_of_dotOf_le hk (h _ ?_)
      rw [← hk, ← BTreeMap.mem_entries]
      exact mem_pairSet.1 hp
    · intro h d hd
      exact dotOf_le_dotOf (h (byDot (keyOf q, d)) (mem_pairSet.2 (m.mem_entries.2 hd)) rfl)
  rw [hiff, hiff]
  constructor
  · rintro ⟨h1, h2⟩ p hp
    rcases Finset.mem_union.1 hp with hp | hp
    · exact h1 p hp
    · exact h2 p hp
  · exact fun h => ⟨fun p hp => h p (Finset.mem_union_left _ hp),
      fun p hp => h p (Finset.mem_union_right _ hp)⟩

lemma pairSet_ofList {l : List (K × D)} (hl : (l.map Prod.fst).Nodup) :
    pairSet (BTreeMap.ofList l).entries = pairSet l := by
  ext q
  rw [mem_pairSet, mem_pairSet, BTreeMap.mem_entries, BTreeMap.get?_ofList hl,
    lookup_eq_some_iff hl]

omit [LinearOrder D] in
lemma nodup_map_byDot (m : BTreeMap K D) : (m.entries.map byDot).Nodup :=
  (List.Nodup.of_map _ m.nodup).map byDot_injective

/-- The newest `k` pairs of a map, as a sort and a skip select them. -/
lemma pairSet_sortSkip {m : BTreeMap K D} {l : List (K × D)} {k : ℕ}
    (h : l.map byDot = sortSkip (m.entries.map byDot) ((m.entries.map byDot).length - k)) :
    pairSet l = newest k (pairSet m.entries) := by
  rw [pairSet, h, toFinset_sortSkip (nodup_map_byDot m), pairSet]

lemma pairSet_sortSkip_zero {m : BTreeMap K D} {l : List (K × D)}
    (h : l.map byDot = sortSkip (m.entries.map byDot) 0) : pairSet l = pairSet m.entries := by
  rw [pairSet, h, toFinset_sortSkip_zero, pairSet]

/-- A list in dot order whose pairs are each the latest of their key has distinct keys. -/
lemma nodup_fst {l : List (K × D)} (hl : (l.map byDot).Pairwise (· < ·))
    (h : ∀ q ∈ pairSet l, q ∈ latest (pairSet l)) : (l.map Prod.fst).Nodup := by
  refine (List.Nodup.of_map byDot (hl.imp fun h => h.ne)).map_on fun p hp q hq hk => ?_
  have hmem : ∀ p ∈ l, byDot p ∈ latest (pairSet l) := fun p hp => h _ (mem_pairSet.2 hp)
  exact byDot_injective (eq_of_mem_latest (hmem p hp) (hmem q hq) hk)

lemma eq_of_pairSet_eq {l l' : List (K × D)} (hl : (l.map byDot).Pairwise (· < ·))
    (hl' : (l'.map byDot).Pairwise (· < ·)) (h : pairSet l = pairSet l') : l = l' :=
  byDot_injective.list_map (eq_of_toFinset_eq hl hl' h)

end Maps

/-! ### Element sets -/

/-- Adds and removes with their dots, over the dots that stand. -/
@[ext]
structure LwwSet (K E D : Type*) [LinearOrder K] [LinearOrder E] [LinearOrder D] where
  adds : Finset (D ×ₗ K)
  removes : Finset (D ×ₗ E)
  floor : Set D
  upper : IsUpperSet floor

namespace LwwSet

variable {K E D : Type*} [LinearOrder K] [LinearOrder E] [LinearOrder D]

def union (x y : LwwSet K E D) : LwwSet K E D :=
  ⟨x.adds ∪ y.adds, x.removes ∪ y.removes, x.floor ∩ y.floor, x.upper.inter y.upper⟩

lemma card_union_adds_le (x y : LwwSet K E D) :
    (x.union y).adds.card ≤ x.adds.card + y.adds.card := Finset.card_union_le _ _

lemma card_union_removes_le (x y : LwwSet K E D) :
    (x.union y).removes.card ≤ x.removes.card + y.removes.card := Finset.card_union_le _ _

lemma union_adds_of_empty {x y : LwwSet K E D} (h : y.adds = ∅) : (x.union y).adds = x.adds := by
  rw [union, h, Finset.union_empty]

lemma union_comm (x y : LwwSet K E D) : x.union y = y.union x :=
  LwwSet.ext (Finset.union_comm _ _) (Finset.union_comm _ _) (Set.inter_comm _ _)

lemma union_assoc (x y z : LwwSet K E D) : (x.union y).union z = x.union (y.union z) :=
  LwwSet.ext (Finset.union_assoc _ _ _) (Finset.union_assoc _ _ _) (Set.inter_assoc _ _ _)

lemma union_self (x : LwwSet K E D) : x.union x = x :=
  LwwSet.ext (Finset.union_self _) (Finset.union_self _) (Set.inter_self _)

lemma union_rotate (x y z : LwwSet K E D) : (x.union y).union z = (y.union z).union x := by
  rw [union_assoc, union_comm]

variable (digest : K → E)

/-- A remove of the digest of the key, at the dot or above it. -/
def Covers (removes : Finset (D ×ₗ E)) (q : D ×ₗ K) : Prop :=
  ∃ t ∈ removes, keyOf t = digest (keyOf q) ∧ dotOf q ≤ dotOf t

/-- The latest adds that stand and that no remove covers. -/
noncomputable def visible (x : LwwSet K E D) : Finset (D ×ₗ K) :=
  open Classical in
  (latest x.adds).filter fun q => dotOf q ∈ x.floor ∧ ¬ Covers digest x.removes q

noncomputable def standing (x : LwwSet K E D) : Finset (D ×ₗ E) :=
  open Classical in (latest x.removes).filter fun t => dotOf t ∈ x.floor

/-- The union with its newest `n` visible adds and its newest `m` standing removes. -/
noncomputable def merge (n m : ℕ∞) (x y : LwwSet K E D) : LwwSet K E D where
  adds := newest n (visible digest (x.union y))
  removes := newest m (standing (x.union y))
  floor := (x.union y).floor
  upper := (x.union y).upper

/-- Everything held is visible or standing. -/
structure Normal (x : LwwSet K E D) : Prop where
  adds : visible digest x = x.adds
  removes : standing x = x.removes

variable {digest} {x y z : LwwSet K E D} {n m : ℕ∞} {p q : D ×ₗ K} {t : D ×ₗ E}

lemma mem_visible : q ∈ visible digest x ↔
    q ∈ latest x.adds ∧ dotOf q ∈ x.floor ∧ ¬ Covers digest x.removes q := by
  simp [visible]

lemma mem_standing : t ∈ standing x ↔ t ∈ latest x.removes ∧ dotOf t ∈ x.floor := by
  simp [standing]

omit [LinearOrder K] [LinearOrder E] in
lemma Covers.mono {r r' : Finset (D ×ₗ E)} (h : Covers digest r q) (hr : r ⊆ r') :
    Covers digest r' q := by
  obtain ⟨t, ht, hk⟩ := h
  exact ⟨t, hr ht, hk⟩

omit [LinearOrder E] in
lemma Covers.of_le {r : Finset (D ×ₗ E)} (h : Covers digest r p) (hk : keyOf q = keyOf p)
    (hle : q ≤ p) : Covers digest r q := by
  obtain ⟨t, ht, hkey, hdot⟩ := h
  exact ⟨t, ht, by rw [hkey, hk], (dotOf_le_dotOf hle).trans hdot⟩

omit [LinearOrder K] in
lemma covers_union {r r' : Finset (D ×ₗ E)} :
    Covers digest (r ∪ r') q ↔ Covers digest r q ∨ Covers digest r' q := by
  simp only [Covers, Finset.mem_union, or_and_right, exists_or]

lemma visible_subset : visible digest x ⊆ x.adds := fun _ h =>
  (mem_latest.1 (mem_visible.1 h).1).1

lemma standing_subset : standing x ⊆ x.removes := fun _ h =>
  (mem_latest.1 (mem_standing.1 h).1).1

lemma Normal.mem_latest (hz : Normal digest z) (hq : q ∈ z.adds) : q ∈ latest z.adds :=
  (mem_visible.1 (hz.adds.symm ▸ hq)).1

lemma Normal.mem_latest_removes (hz : Normal digest z) (ht : t ∈ z.removes) :
    t ∈ latest z.removes :=
  (mem_standing.1 (hz.removes.symm ▸ ht)).1

lemma latest_eq_self {K : Type*} [LinearOrder K] {s : Finset (D ×ₗ K)}
    (h : ∀ p ∈ s, ∀ q ∈ s, keyOf p = keyOf q → p = q) : latest s = s :=
  Finset.filter_true_of_mem fun q hq p hp hk => (h p hp q hq hk).le

/-- A set with one dot per key, whose adds and removes stand and whose adds are uncovered. -/
lemma normal_of_unique (ha : ∀ p ∈ x.adds, ∀ q ∈ x.adds, keyOf p = keyOf q → p = q)
    (hr : ∀ t ∈ x.removes, ∀ u ∈ x.removes, keyOf t = keyOf u → t = u)
    (hq : ∀ q ∈ x.adds, dotOf q ∈ x.floor ∧ ¬ Covers digest x.removes q)
    (ht : ∀ t ∈ x.removes, dotOf t ∈ x.floor) : Normal digest x := by
  constructor
  · refine visible_subset.antisymm fun q h => mem_visible.2 ⟨?_, hq q h⟩
    rwa [latest_eq_self ha]
  · refine standing_subset.antisymm fun t h => mem_standing.2 ⟨?_, ht t h⟩
    rwa [latest_eq_self hr]

lemma merge_adds :
    (merge digest n m x y).adds = newest n (visible digest (x.union y)) := rfl

lemma merge_removes : (merge digest n m x y).removes = newest m (standing (x.union y)) := rfl

lemma merge_comm : merge digest n m x y = merge digest n m y x :=
  LwwSet.ext (by rw [merge_adds, merge_adds, union_comm])
    (by rw [merge_removes, merge_removes, union_comm]) (Set.inter_comm _ _)

lemma mem_removes_of_merge (ht : t ∈ (merge digest n m x y).removes) : t ∈ (x.union y).removes :=
  standing_subset (newest_subset ht)

lemma mem_adds_of_merge (hq : q ∈ (merge digest n m x y).adds) : q ∈ (x.union y).adds :=
  visible_subset (newest_subset hq)

lemma merge_union_removes_subset :
    ((merge digest n m x y).union z).removes ⊆ ((x.union y).union z).removes :=
  Finset.union_subset_union (fun _ => mem_removes_of_merge) (Finset.Subset.refl _)

lemma merge_union_adds_subset :
    ((merge digest n m x y).union z).adds ⊆ ((x.union y).union z).adds :=
  Finset.union_subset_union (fun _ => mem_adds_of_merge) (Finset.Subset.refl _)

/-! ### The removes of two merges -/

/-- A remove that stands has a standing remove of its key at its dot or above. -/
lemma exists_standing (ht : t ∈ x.removes) (hf : dotOf t ∈ x.floor) :
    ∃ u ∈ standing x, keyOf u = keyOf t ∧ t ≤ u := by
  obtain ⟨u, hu, hk, hle⟩ := exists_latest ht
  exact ⟨u, mem_standing.2 ⟨hu, x.upper (dotOf_le_dotOf hle) hf⟩, hk, hle⟩

lemma standing_unique {t u : D ×ₗ E} (ht : t ∈ standing x) (hu : u ∈ standing x)
    (h : keyOf t = keyOf u) : t = u :=
  eq_of_mem_latest (mem_standing.1 ht).1 (mem_standing.1 hu).1 h

/-- The newest removes of the three sets survive the first merge. -/
lemma newest_standing_subset :
    newest m (standing ((x.union y).union z)) ⊆
      standing ((merge digest n m x y).union z) := by
  intro t ht
  obtain ⟨hstand, habove⟩ := mem_newest.1 ht
  obtain ⟨hlatest, hfloor⟩ := mem_standing.1 hstand
  suffices hmem : t ∈ ((merge digest n m x y).union z).removes from
    mem_standing.2 ⟨mem_latest_of_subset hlatest merge_union_removes_subset hmem, hfloor⟩
  rcases Finset.mem_union.1 (mem_latest.1 hlatest).1 with hxy | hz
  · refine Finset.mem_union.2 (Or.inl (mem_newest.2 ⟨?_, ?_⟩))
    · exact mem_standing.2 ⟨mem_latest_of_subset hlatest Finset.subset_union_left hxy, hfloor.1⟩
    · refine lt_of_le_of_lt ?_ habove
      -- every standing remove of the pair above `t` stands above it in the three
      refine Nat.cast_le.2 (above_le_above_of_keys (fun u hu v hv => standing_unique hu hv)
        fun u hu htu => ?_)
      refine exists_standing (Finset.mem_union_left _ (standing_subset hu)) ?_
      exact ((x.union y).union z).upper (dotOf_le_dotOf htu.le) hfloor
  · exact Finset.mem_union_right _ hz

/-- The newest removes after the second merge stand in the three sets. -/
lemma newest_standing_merge_subset :
    newest m (standing ((merge digest n m x y).union z)) ⊆
      standing ((x.union y).union z) := by
  intro t ht
  obtain ⟨hstand, habove⟩ := mem_newest.1 ht
  obtain ⟨hlatest, hfloor⟩ := mem_standing.1 hstand
  have hmem := merge_union_removes_subset (mem_latest.1 hlatest).1
  obtain ⟨u, hu, hk, htu⟩ := exists_latest hmem
  suffices heq : u = t from heq ▸ mem_standing.2 ⟨hu, heq ▸ hfloor⟩
  by_contra hne
  have hlt : t < u := lt_of_le_of_ne htu (Ne.symm hne)
  -- the greater remove of the key was dropped by the first merge
  have hout : u ∉ ((merge digest n m x y).union z).removes := fun h =>
    hlt.not_ge ((mem_latest.1 hlatest).2 u h hk)
  rcases Finset.mem_union.1 (mem_latest.1 hu).1 with hxy | hz
  · have hfu : dotOf u ∈ ((x.union y).union z).floor :=
      ((x.union y).union z).upper (dotOf_le_dotOf htu) hfloor
    have hstand' : u ∈ standing (x.union y) :=
      mem_standing.2 ⟨mem_latest_of_subset hu Finset.subset_union_left hxy, hfu.1⟩
    have hdrop : m ≤ above (standing (x.union y)) u := by
      by_contra hlt
      exact hout (Finset.mem_union_left _ (mem_newest.2 ⟨hstand', not_le.1 hlt⟩))
    have hkept : m ≤ above (merge digest n m x y).removes u :=
      le_above_of_newest_subset (Finset.Subset.refl _) hdrop
    have hcount : above (merge digest n m x y).removes u ≤
        above (standing ((merge digest n m x y).union z)) u := by
      refine above_le_above_of_keys
        (fun v hv w hw => standing_unique (newest_subset hv) (newest_subset hw))
        fun v hv huv => ?_
      refine exists_standing (Finset.mem_union_left _ hv) ?_
      exact ((x.union y).union z).upper (dotOf_le_dotOf huv.le) hfu
    have hle : m ≤ above (standing ((merge digest n m x y).union z)) t :=
      hkept.trans (by exact_mod_cast hcount.trans (above_antitone htu))
    exact habove.not_ge hle
  · exact hout (Finset.mem_union_right _ hz)

/-- **Removes agree.** A second merge keeps the newest removes of all three sets. -/
lemma merge_merge_removes :
    (merge digest n m (merge digest n m x y) z).removes =
      newest m (standing ((x.union y).union z)) :=
  newest_congr newest_standing_merge_subset newest_standing_subset

/-! ### When the adds agree -/

variable (digest n m)

/-- Nothing of the result is lost: each of the newest visible adds of the three sets is held by
`z`, or has fewer than `n` adds above it among the visible ones of `x` and `y`. -/
def NoLoss (x y z : LwwSet K E D) : Prop :=
  ∀ q ∈ newest n (visible digest ((x.union y).union z)), q ∈ z.adds ∨
    q ∈ visible digest (x.union y) ∧ (above (visible digest (x.union y)) q : ℕ∞) < n

/-- Nothing removed returns: an add of `z` that stands, and whose key is removed at its latest
dot in the three sets, is covered by one of the newest `m` standing removes of `x` and `y`, or
has `n` visible adds of the three above it. -/
def NoReturn (x y z : LwwSet K E D) : Prop :=
  ∀ q ∈ z.adds, dotOf q ∈ ((x.union y).union z).floor →
    (∃ p ∈ latest ((x.union y).union z).adds,
      keyOf p = keyOf q ∧ Covers digest ((x.union y).union z).removes p) →
    Covers digest (newest m (standing (x.union y))) q ∨
      n ≤ above (visible digest ((x.union y).union z)) q

variable {digest n m}

lemma Normal.not_covers (hz : Normal digest z) (hq : q ∈ z.adds) : ¬ Covers digest z.removes q :=
  (mem_visible.1 (hz.adds.symm ▸ hq)).2.2

/-- A visible add of the three sets that the first merge or `z` still holds is visible after. -/
lemma mem_visible_of_mem (h : q ∈ visible digest ((x.union y).union z))
    (hq : q ∈ ((merge digest n m x y).union z).adds) :
    q ∈ visible digest ((merge digest n m x y).union z) := by
  obtain ⟨hlatest, hfloor, hcov⟩ := mem_visible.1 h
  exact mem_visible.2 ⟨mem_latest_of_subset hlatest merge_union_adds_subset hq, hfloor,
    fun hc => hcov (hc.mono merge_union_removes_subset)⟩

/-- Of a key removed in the three sets, and not by `z`, the first merge holds no add. -/
lemma removed_cases (hp : p ∈ latest ((x.union y).union z).adds)
    (hk : keyOf p = keyOf q) (hqp : q ≤ p)
    (hcov : Covers digest ((x.union y).union z).removes p) (hzcov : ¬ Covers digest z.removes q) :
    ∀ q' ∈ (merge digest n m x y).adds, keyOf q' ≠ keyOf q := by
  intro q' hq' hk'
  have hvis := newest_subset hq'
  rcases covers_union.1 hcov with hc | hc
  · have hle : q' ≤ p := (mem_latest.1 hp).2 q'
      (Finset.mem_union_left _ (mem_adds_of_merge hq')) (hk'.trans hk.symm)
    exact (mem_visible.1 hvis).2.2 (hc.of_le (hk'.trans hk.symm) hle)
  · exact hzcov (hc.of_le hk.symm hqp)

lemma noLoss_of_newest_eq
    (h : newest n (visible digest ((merge digest n m x y).union z)) =
      newest n (visible digest ((x.union y).union z))) : NoLoss digest n x y z := by
  intro q hq
  have hmem := visible_subset (newest_subset (h ▸ hq))
  rcases Finset.mem_union.1 hmem with hq | hq
  · exact Or.inr (mem_newest.1 hq)
  · exact Or.inl hq

lemma noReturn_of_newest_eq (hz : Normal digest z)
    (h : newest n (visible digest ((merge digest n m x y).union z)) =
      newest n (visible digest ((x.union y).union z))) : NoReturn digest n m x y z := by
  rintro q hq hfloor ⟨p, hp, hk, hcov⟩
  rw [or_iff_not_imp_left]
  intro hnot
  have hqp : q ≤ p := (mem_latest.1 hp).2 q (Finset.mem_union_right _ hq) hk.symm
  have hzcov := hz.not_covers hq
  -- the add comes back after the two merges, so it must lie past the cap there
  have hback : q ∈ visible digest ((merge digest n m x y).union z) := by
    refine mem_visible.2 ⟨mem_latest.2 ⟨Finset.mem_union_right _ hq, fun q' hq' hk' => ?_⟩,
      hfloor, fun hc => (covers_union.1 hc).elim hnot hzcov⟩
    rcases Finset.mem_union.1 hq' with hq' | hq'
    · exact absurd hk' (removed_cases hp hk hqp hcov hzcov q' hq')
    · exact (mem_latest.1 (hz.mem_latest hq)).2 q' hq' hk'
  have hgone : q ∉ visible digest ((x.union y).union z) := fun hv => by
    obtain rfl := eq_of_mem_latest (mem_visible.1 hv).1 hp hk.symm
    exact (mem_visible.1 hv).2.2 hcov
  have hpast : n ≤ above (visible digest ((merge digest n m x y).union z)) q := by
    by_contra hlt
    exact hgone (newest_subset (h ▸ mem_newest.2 ⟨hback, not_le.1 hlt⟩))
  exact le_above_of_newest_subset (h ▸ newest_subset) hpast

lemma newest_eq_of_noLoss_noReturn (hloss : NoLoss digest n x y z)
    (hret : NoReturn digest n m x y z) :
    newest n (visible digest ((merge digest n m x y).union z)) =
      newest n (visible digest ((x.union y).union z)) := by
  have hheld : ∀ q ∈ newest n (visible digest ((x.union y).union z)),
      q ∈ ((merge digest n m x y).union z).adds := by
    intro q hq
    rcases hloss q hq with h | h
    · exact Finset.mem_union_right _ h
    · exact Finset.mem_union_left _ (mem_newest.2 h)
  have hkept : newest n (visible digest ((x.union y).union z)) ⊆
      visible digest ((merge digest n m x y).union z) := fun q hq =>
    mem_visible_of_mem (newest_subset hq) (hheld q hq)
  refine newest_congr (fun q hq => ?_) hkept
  obtain ⟨hvis, habove⟩ := mem_newest.1 hq
  obtain ⟨hlatest, hfloor, hcov⟩ := mem_visible.1 hvis
  have hfew : ¬ n ≤ above (visible digest ((x.union y).union z)) q := fun hle =>
    habove.not_ge (le_above_of_newest_subset hkept hle)
  obtain ⟨p, hp, hk, hqp⟩ := exists_latest (merge_union_adds_subset (mem_latest.1 hlatest).1)
  have hpfloor := ((x.union y).union z).upper (dotOf_le_dotOf hqp) hfloor
  by_cases hpcov : Covers digest ((x.union y).union z).removes p
  · -- the key is removed in the three sets: only an add of `z` can have come back
    exfalso
    have hzcov : ¬ Covers digest z.removes q := fun hc => hcov (covers_union.2 (Or.inr hc))
    rcases Finset.mem_union.1 (mem_latest.1 hlatest).1 with hq' | hq'
    · exact removed_cases hp hk hqp hpcov hzcov q hq' rfl
    · rcases hret q hq' hfloor ⟨p, hp, hk, hpcov⟩ with hc | hle
      · exact hcov (covers_union.2 (Or.inl hc))
      · exact hfew hle
  · have hpvis : p ∈ visible digest ((x.union y).union z) := mem_visible.2 ⟨hp, hpfloor, hpcov⟩
    suffices heq : p = q from heq ▸ hpvis
    by_contra hne
    have hlt : q < p := lt_of_le_of_ne hqp (Ne.symm hne)
    have hpout : p ∉ newest n (visible digest ((x.union y).union z)) := fun hpn =>
      hlt.not_ge ((mem_latest.1 hlatest).2 p (hheld p hpn) hk)
    have hple : n ≤ above (visible digest ((x.union y).union z)) p := by
      by_contra h
      exact hpout (mem_newest.2 ⟨hpvis, not_le.1 h⟩)
    exact hfew (hple.trans (by exact_mod_cast above_antitone hqp))

/-- **Two merges.** Merging `z` into the merge of `x` and `y` shows the newest visible adds of
the three exactly when the first merge loses none of them and lets no removed add return. -/
lemma merge_merge_adds_iff (hz : Normal digest z) :
    (merge digest n m (merge digest n m x y) z).adds =
        newest n (visible digest ((x.union y).union z)) ↔
      NoLoss digest n x y z ∧ NoReturn digest n m x y z :=
  ⟨fun h => ⟨noLoss_of_newest_eq h, noReturn_of_newest_eq hz h⟩,
    fun h => newest_eq_of_noLoss_noReturn h.1 h.2⟩

lemma noLoss_of_card_le (h : ((x.union y).adds.card : ℕ∞) ≤ n) : NoLoss digest n x y z := by
  intro q hq
  obtain ⟨hlatest, hfloor, hcov⟩ := mem_visible.1 (newest_subset hq)
  rcases Finset.mem_union.1 (mem_latest.1 hlatest).1 with hxy | hz
  · have hvis : q ∈ visible digest (x.union y) :=
      mem_visible.2 ⟨mem_latest_of_subset hlatest Finset.subset_union_left hxy, hfloor.1,
        fun hc => hcov (hc.mono Finset.subset_union_left)⟩
    refine Or.inr ⟨hvis, lt_of_lt_of_le ?_ h⟩
    exact_mod_cast (above_lt_card hvis).trans_le (Finset.card_le_card visible_subset)
  · exact Or.inl hz

lemma noReturn_of_card_le (hz : Normal digest z) (h : ((x.union y).removes.card : ℕ∞) ≤ m) :
    NoReturn digest n m x y z := by
  rintro q hq hfloor ⟨p, hp, hk, hcov⟩
  have hqp : q ≤ p := (mem_latest.1 hp).2 q (Finset.mem_union_right _ hq) hk.symm
  rcases covers_union.1 (hcov.of_le hk.symm hqp) with ⟨t, ht, hkt, hle⟩ | hc
  · obtain ⟨u, hu, hku, htu⟩ := exists_standing ht ((x.union y).upper hle hfloor.1)
    rw [newest_eq_self ((Nat.cast_le.2 (Finset.card_le_card standing_subset)).trans h)]
    exact Or.inl ⟨u, hu, hku.trans hkt, hle.trans (dotOf_le_dotOf htu)⟩
  · exact absurd hc (hz.not_covers hq)

/-! ### When every order agrees -/

section Orders

variable {n : ℕ}

lemma mem_visible_merge (h : q ∈ (merge digest n m (merge digest n m x y) z).adds) :
    q ∈ visible digest ((merge digest n m x y).union z) := newest_subset h

/-- An add every order shows is the latest of its key, if `z` holds the latest. -/
lemma latest_of_shown (h : q ∈ (merge digest n m (merge digest n m x y) z).adds)
    (hk : keyOf p = keyOf q) (hqp : q ≤ p) (hz : p ∈ z.adds) : p = q :=
  le_antisymm ((mem_latest.1 (mem_visible.1 (mem_visible_merge h)).1).2 p
    (Finset.mem_union_right _ hz) hk) hqp

lemma not_covers_of_shown (h : q ∈ (merge digest n m (merge digest n m x y) z).adds) :
    ¬ Covers digest z.removes q := fun hc =>
  (mem_visible.1 (mem_visible_merge h)).2.2 (covers_union.2 (Or.inr hc))

/-- A newest visible add that `z` holds is shown, once all that is shown is visible. -/
lemma shown_of_mem (hsub : (merge digest n m (merge digest n m x y) z).adds ⊆
      visible digest ((x.union y).union z))
    (hq : q ∈ newest n (visible digest ((x.union y).union z))) (hz : q ∈ z.adds) :
    q ∈ (merge digest n m (merge digest n m x y) z).adds := by
  refine mem_newest.2
    ⟨mem_visible_of_mem (newest_subset hq) (Finset.mem_union_right _ hz), ?_⟩
  by_contra hge
  exact (mem_newest.1 hq).2.not_ge (le_above_of_newest_subset hsub (not_lt.1 hge))

/-- All three orders together show only visible adds, and every newest one: so the newest. -/
lemma adds_eq_newest_of_agree {s : Finset (D ×ₗ K)}
    (h1 : (merge digest n m (merge digest n m x y) z).adds = s)
    (h2 : (merge digest n m (merge digest n m y z) x).adds = s)
    (h3 : (merge digest n m (merge digest n m z x) y).adds = s) :
    s = newest n (visible digest ((x.union y).union z)) := by
  have e2 : (y.union z).union x = (x.union y).union z := (union_rotate x y z).symm
  have e3 : (z.union x).union y = (x.union y).union z := by rw [← union_rotate, e2]
  have hsub : s ⊆ visible digest ((x.union y).union z) := by
    intro q hq
    have hq1 := h1.symm ▸ hq
    have hq2 := h2.symm ▸ hq
    have hq3 := h3.symm ▸ hq
    have hv := mem_visible.1 (mem_visible_merge hq1)
    obtain ⟨p, hp, hk, hqp⟩ := exists_latest (merge_union_adds_subset (mem_latest.1 hv.1).1)
    have heq : p = q := by
      rcases Finset.mem_union.1 (mem_latest.1 hp).1 with hxy | hz
      · rcases Finset.mem_union.1 hxy with hx | hy
        · exact latest_of_shown hq2 hk hqp hx
        · exact latest_of_shown hq3 hk hqp hy
      · exact latest_of_shown hq1 hk hqp hz
    refine mem_visible.2 ⟨heq ▸ hp, hv.2.1, fun hc => ?_⟩
    rcases covers_union.1 hc with hc | hc
    · rcases covers_union.1 hc with hc | hc
      · exact not_covers_of_shown hq2 hc
      · exact not_covers_of_shown hq3 hc
    · exact not_covers_of_shown hq1 hc
  refine eq_newest_of_card_le hsub (fun q hq => ?_) ?_
  · rcases Finset.mem_union.1 (visible_subset (newest_subset hq)) with hxy | hz
    · rcases Finset.mem_union.1 hxy with hx | hy
      · exact h2 ▸ shown_of_mem (by rw [h2, e2]; exact hsub) (by rwa [e2]) hx
      · exact h3 ▸ shown_of_mem (by rw [h3, e3]; exact hsub) (by rwa [e3]) hy
    · exact h1 ▸ shown_of_mem (by rw [h1]; exact hsub) hq hz
  · have hcard : ((s.card : ℕ) : ℕ∞) ≤ n := by
      rw [← h1, merge_adds, card_newest]
      exact min_le_left _ _
    exact_mod_cast hcard

/-- Nothing is lost and nothing returns, whichever of the three sets comes last. -/
def Settled (digest : K → E) (n m : ℕ∞) (x y z : LwwSet K E D) : Prop :=
  (NoLoss digest n x y z ∧ NoReturn digest n m x y z) ∧
    (NoLoss digest n y z x ∧ NoReturn digest n m y z x) ∧
      (NoLoss digest n z x y ∧ NoReturn digest n m z x y)

/-- **Orders agree.** The adds of three normalized sets agree in every order of merging exactly
when nothing is lost and nothing returns in any of them. -/
theorem orders_agree_iff (hx : Normal digest x) (hy : Normal digest y) (hz : Normal digest z) :
    ((merge digest n m (merge digest n m x y) z).adds =
        (merge digest n m (merge digest n m y z) x).adds ∧
      (merge digest n m (merge digest n m y z) x).adds =
        (merge digest n m (merge digest n m z x) y).adds) ↔ Settled digest n m x y z := by
  have e2 : (y.union z).union x = (x.union y).union z := (union_rotate x y z).symm
  have e3 : (z.union x).union y = (x.union y).union z := by rw [← union_rotate, e2]
  constructor
  · rintro ⟨h12, h23⟩
    have h1 := adds_eq_newest_of_agree h12 rfl h23.symm
    have h2 := adds_eq_newest_of_agree (h12.trans h23) h23 rfl
    refine ⟨(merge_merge_adds_iff hz).1 (h12.trans h1), (merge_merge_adds_iff hx).1 ?_,
      (merge_merge_adds_iff hy).1 ?_⟩
    · rw [e2]
      exact h1
    · rw [e3]
      exact h2
  · rintro ⟨h1, h2, h3⟩
    have h1 := (merge_merge_adds_iff hz).2 h1
    have h2 := (merge_merge_adds_iff hx).2 h2
    have h3 := (merge_merge_adds_iff hy).2 h3
    rw [e2] at h2
    rw [e3] at h3
    exact ⟨h1.trans h2.symm, h2.trans h3.symm⟩

end Orders

end LwwSet

end Rings
