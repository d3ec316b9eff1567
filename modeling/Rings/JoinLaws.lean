import Rings.Carrier
import Rings.LwwSet

/-!
The join of entries as a merge of element sets.

A stored entry is determined by its element set: the lists are sorted by dot, and the caps of
the kind bound them. On stored entries `join` computes the merge of the sets under these caps.
It is idempotent and commutative; in three entries every order of joining gives one entry
exactly when no add is lost to the cap and no removed add returns.
-/

namespace Rings

/-! ### Entries as element sets -/

def TombstoneBound.kept : TombstoneBound → ℕ∞
  | .refuse _ => ⊤
  | .truncate cap => cap

namespace Entry

variable {codec : Codec} {e e' : Entry} {b : DataTopicBuffer} {x : Option ℕ}

/-- The element set of an entry: its adds, its removes, and the dots its register leaves. -/
def toSet (e : Entry) : LwwSet Bytes ElementDigest EntryDot where
  adds := pairSet e.elements
  removes := pairSet e.removals
  floor := {d | ∀ f, e.crdt.register = some f → f ≤ d.version}
  upper := fun _ _ hle h f hf => (h f hf).trans (EntryDot.version_le hle)

/-- A stored entry: aligned, in dot order, normalized as a set, and within its caps. -/
structure Canonical (codec : Codec) (e : Entry) : Prop where
  aligned : e.Aligned
  adds : (e.elements.map byDot).Pairwise (· < ·)
  removes : (e.removals.map byDot).Pairwise (· < ·)
  normal : e.toSet.Normal codec.digest
  addsLen : e.elements.length ≤ e.kind.maxDataLen
  removesLen : (e.removals.length : ℕ∞) ≤ e.kind.tombstoneBound.kept

lemma map_byDot_elements_materialize :
    (e.materializeTopicBuffer b x).elements.map byDot =
      sortSkip (b.values.entries.map byDot)
        ((b.values.entries.map byDot).length - e.kind.maxDataLen) := by
  rw [elements_materialize, List.map_map, List.length_map]
  exact List.map_id _

lemma map_byDot_removals_materialize :
    (e.materializeTopicBuffer b x).removals.map byDot =
      sortSkip (b.removes.entries.map byDot)
        (e.kind.tombstoneBound.truncated (b.removes.entries.map byDot).length) := by
  rw [removals_materialize, List.map_map, List.length_map]
  exact List.map_id _

lemma adds_materialize : (e.materializeTopicBuffer b x).toSet.adds =
    newest e.kind.maxDataLen (pairSet b.values.entries) :=
  pairSet_sortSkip map_byDot_elements_materialize

lemma removes_materialize : (e.materializeTopicBuffer b x).toSet.removes =
    newest e.kind.tombstoneBound.kept (pairSet b.removes.entries) := by
  have h := map_byDot_removals_materialize (e := e) (b := b) (x := x)
  cases hk : e.kind.tombstoneBound with
  | refuse bound =>
    rw [hk] at h
    rw [TombstoneBound.kept, newest_top]
    exact pairSet_sortSkip_zero h
  | truncate cap =>
    rw [hk] at h
    exact pairSet_sortSkip h

/-- A normalized buffer, its removes past the register, is written back as a stored entry. -/
lemma canonical_materialize (hb : NormalBuffer codec b)
    (hr : ∀ k r, b.removes.get? k = some r → ∀ f, b.register = some f → f ≤ r.version) :
    (e.materializeTopicBuffer b x).Canonical codec := by
  have hadds : ∀ q ∈ (e.materializeTopicBuffer b x).toSet.adds,
      b.values.get? (keyOf q) = some (dotOf q) := fun q hq =>
    b.values.mem_entries.1 (mem_pairSet.1 (newest_subset (adds_materialize ▸ hq)))
  have hremoves : ∀ t ∈ (e.materializeTopicBuffer b x).toSet.removes,
      b.removes.get? (keyOf t) = some (dotOf t) := fun t ht =>
    b.removes.mem_entries.1 (mem_pairSet.1 (newest_subset (removes_materialize ▸ ht)))
  refine ⟨aligned_materialize, ?_, ?_, LwwSet.normal_of_unique ?_ ?_ ?_ ?_, ?_, ?_⟩
  · rw [map_byDot_elements_materialize]
    exact pairwise_sortSkip (nodup_map_byDot _) _
  · rw [map_byDot_removals_materialize]
    exact pairwise_sortSkip (nodup_map_byDot _) _
  · intro p hp q hq hk
    have h1 := hadds p hp
    rw [hk, hadds q hq, Option.some.injEq] at h1
    exact Prod.ext h1.symm hk
  · intro p hp q hq hk
    have h1 := hremoves p hp
    rw [hk, hremoves q hq, Option.some.injEq] at h1
    exact Prod.ext h1.symm hk
  · intro q hq
    obtain ⟨hreg, hcov⟩ := hb _ _ (hadds q hq)
    refine ⟨hreg, ?_⟩
    rintro ⟨t, ht, hk, hle⟩
    exact (hcov (dotOf t) (hk ▸ hremoves t ht)).not_ge hle
  · exact fun t ht => hr _ _ (hremoves t ht)
  · have h := congrArg List.length (map_byDot_elements_materialize (e := e) (b := b) (x := x))
    simp only [List.length_map, sortSkip, List.length_drop, List.length_insertionSort] at h
    rw [h]
    exact (Nat.sub_le_iff_le_add.2 (by simp only [materializeTopicBuffer]; omega))
  · have h := congrArg List.length (map_byDot_removals_materialize (e := e) (b := b) (x := x))
    simp only [List.length_map, sortSkip, List.length_drop, List.length_insertionSort] at h
    rw [h]
    change _ ≤ e.kind.tombstoneBound.kept
    cases e.kind.tombstoneBound with
    | refuse bound => exact le_top
    | truncate cap =>
      rw [TombstoneBound.truncated, TombstoneBound.kept, Nat.cast_le]
      omega

/-! ### The join is a merge -/

variable {a c : Entry}

lemma Canonical.nodup_elements (h : e.Canonical codec) : (e.elements.map Prod.fst).Nodup :=
  nodup_fst h.adds fun _ hq => h.normal.mem_latest hq

lemma Canonical.nodup_removals (h : e.Canonical codec) : (e.removals.map Prod.fst).Nodup :=
  nodup_fst h.removes fun _ ht => h.normal.mem_latest_removes ht

/-- Reading a joined map, covering is covering by the pairs of both sides. -/
lemma covers_iff {m : BTreeMap ElementDigest EntryDot} {s : Finset (EntryDot ×ₗ ElementDigest)}
    (hm : pairSet m.entries = latest s) {q : EntryDot ×ₗ Bytes} :
    LwwSet.Covers codec.digest s q ↔
      ∃ r, m.get? (codec.digest (keyOf q)) = some r ∧ dotOf q ≤ r := by
  constructor
  · rintro ⟨t, ht, hk, hle⟩
    obtain ⟨u, hu, hku, htu⟩ := exists_latest ht
    refine ⟨dotOf u, ?_, hle.trans (dotOf_le_dotOf htu)⟩
    rw [← hk, ← hku, ← m.mem_entries]
    exact mem_pairSet.1 (hm.symm ▸ hu)
  · rintro ⟨r, hr, hle⟩
    have hmem : byDot (codec.digest (keyOf q), r) ∈ latest s :=
      hm ▸ mem_pairSet.2 (m.mem_entries.2 hr)
    exact ⟨_, (mem_latest.1 hmem).1, rfl, hle⟩

lemma floor_iff {d : EntryDot} :
    (∀ f, max a.crdt.register c.crdt.register = some f → f ≤ d.version) ↔
      d ∈ (a.toSet.union c.toSet).floor := by
  constructor
  · intro h
    refine ⟨fun f hf => ?_, fun f hf => ?_⟩
    · obtain ⟨g, hfg, hg⟩ := exists_omax_left (p := c.crdt.register) hf
      exact hfg.trans (h g hg)
    · obtain ⟨g, hfg, hg⟩ := exists_omax_right (o := a.crdt.register) hf
      exact hfg.trans (h g hg)
  · rintro ⟨ha, hc⟩ f hf
    rcases (omax_eq_some.1 hf).1 with hf | hf
    · exact ha f hf
    · exact hc f hf

/-- The buffer `join` writes back. -/
def joinedBuffer (codec : Codec) (a c : Entry) : DataTopicBuffer :=
  .join codec ⟨a.crdt.register, .ofList a.elements, .ofList a.removals⟩
    ⟨c.crdt.register, .ofList c.elements, .ofList c.removals⟩

lemma pairSet_joined_removes (ha : a.Canonical codec) (hc : c.Canonical codec) :
    pairSet ((BTreeMap.ofList a.removals).join (.ofList c.removals)).entries =
      latest (a.toSet.union c.toSet).removes := by
  rw [pairSet_join, pairSet_ofList ha.nodup_removals, pairSet_ofList hc.nodup_removals]
  rfl

lemma pairSet_joinedBuffer_values (ha : a.Canonical codec) (hc : c.Canonical codec) :
    pairSet (joinedBuffer codec a c).values.entries =
      LwwSet.visible codec.digest (a.toSet.union c.toSet) := by
  ext q
  rw [mem_pairSet, BTreeMap.mem_entries, joinedBuffer, DataTopicBuffer.join,
    DataTopicBuffer.get?_new_values, LwwSet.mem_visible, floor_iff,
    covers_iff (pairSet_joined_removes ha hc), ← BTreeMap.mem_entries, ← mem_pairSet,
    pairSet_join, pairSet_ofList ha.nodup_elements, pairSet_ofList hc.nodup_elements]
  refine and_congr Iff.rfl (and_congr_right fun _ => ?_)
  simp only [not_exists, not_and, not_le]

lemma pairSet_joinedBuffer_removes (ha : a.Canonical codec) (hc : c.Canonical codec) :
    pairSet (joinedBuffer codec a c).removes.entries =
      LwwSet.standing (a.toSet.union c.toSet) := by
  ext t
  rw [mem_pairSet, BTreeMap.mem_entries, joinedBuffer, DataTopicBuffer.join,
    DataTopicBuffer.get?_new_removes, LwwSet.mem_standing, floor_iff, ← BTreeMap.mem_entries,
    ← mem_pairSet, pairSet_joined_removes ha hc]

structure SameCarrier (a c : Entry) : Prop where
  kind : a.kind = c.kind
  did : a.did = c.did

lemma join_eq (ha : a.Canonical codec) (hc : c.Canonical codec) (h : SameCarrier a c) :
    a.join codec c = .ok (a.materializeTopicBuffer (joinedBuffer codec a c)
      (max a.expiresAtMs c.expiresAtMs)) := by
  rw [join, rawBuffer_of_aligned ha.aligned, rawBuffer_of_aligned hc.aligned]
  simp only [validateSameCarrier, h.kind, h.did, ne_eq, not_true_eq_false, if_false]
  rfl

/-- **Join.** On stored entries of one carrier the join is the merge of their element sets under
the caps of the kind. -/
lemma exists_join (ha : a.Canonical codec) (hc : c.Canonical codec) (h : SameCarrier a c) :
    ∃ z, a.join codec c = .ok z ∧ z.Canonical codec ∧ SameCarrier a z ∧
      z.crdt.register = max a.crdt.register c.crdt.register ∧
      z.expiresAtMs = max a.expiresAtMs c.expiresAtMs ∧
      z.toSet = LwwSet.merge codec.digest a.kind.maxDataLen a.kind.tombstoneBound.kept
        a.toSet c.toSet := by
  refine ⟨_, join_eq ha hc h, canonical_materialize DataTopicBuffer.normalBuffer_new ?_,
    ⟨rfl, rfl⟩, rfl, rfl, LwwSet.ext ?_ ?_ ?_⟩
  · exact fun k r hr => ((DataTopicBuffer.get?_new_removes k).1 hr).2
  · rw [adds_materialize, pairSet_joinedBuffer_values ha hc]
    rfl
  · rw [removes_materialize, pairSet_joinedBuffer_removes ha hc]
    rfl
  · ext d
    exact floor_iff

/-- A stored entry is determined by its carrier, register, bound and element set. -/
lemma Canonical.ext_toSet (h : e.Canonical codec) (h' : e'.Canonical codec)
    (hs : SameCarrier e e') (hr : e.crdt.register = e'.crdt.register)
    (hx : e.expiresAtMs = e'.expiresAtMs) (ha : e.toSet.adds = e'.toSet.adds)
    (hm : e.toSet.removes = e'.toSet.removes) : e = e' := by
  have helements := eq_of_pairSet_eq h.adds h'.adds ha
  have hremovals := eq_of_pairSet_eq h.removes h'.removes hm
  have hdata : e.data = e'.data := by
    have hfst : ∀ e : Entry, e.Aligned → e.elements.map Prod.fst = e.data := fun e he => by
      rw [elements, List.map_fst_zip he.le]
    rw [← hfst e h.aligned, ← hfst e' h'.aligned, helements]
  have hdots : e.crdt.dots = e'.crdt.dots := by
    have hsnd : ∀ e : Entry, e.Aligned → e.elements.map Prod.snd = e.crdt.dots := fun e he => by
      rw [elements, List.map_snd_zip he.ge]
    rw [← hsnd e h.aligned, ← hsnd e' h'.aligned, helements]
  have htombs : e.crdt.tombstones = e'.crdt.tombstones := by
    refine List.map_injective_iff.2 (fun t u htu => ?_) hremovals
    cases t
    cases u
    cases htu
    rfl
  obtain ⟨did, data, kind, ⟨register, dots, tombstones⟩, expires⟩ := e
  obtain ⟨did', data', kind', ⟨register', dots', tombstones'⟩, expires'⟩ := e'
  obtain ⟨hk, hd⟩ := hs
  simp only at hk hd hr hx hdata hdots htombs
  subst hk hd hr hx hdata hdots htombs
  rfl

end Entry

end Rings
