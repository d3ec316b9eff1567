import Rings.Retention

/-!
Entries read as buffers and buffers written back as entries.

A normalized buffer holds no element below its register and none that one of its removes
covers. Writing it back keeps elements of the buffer only, and of a data topic every remove.
A remove once in a buffer is found there again after every join and every removal, at its own
dot or a greater one, unless the register has risen past it.
-/

namespace Rings

variable {codec : Codec}

/-! ### Reading an entry -/

namespace Entry

variable {e other : Entry} {b : DataTopicBuffer}

lemma rawBuffer_ok (h : e.rawBuffer = .ok b) :
    b.register = e.crdt.register ∧ b.removes = .ofList e.removals ∧
      ∀ p ∈ b.values.entries, p.1 ∈ e.data := by
  obtain ⟨values, hvalues, h⟩ := bind_eq_ok.1 h
  cases h
  refine ⟨rfl, rfl, fun p hp => ?_⟩
  obtain ⟨⟨value, index⟩, hq, hp⟩ :=
    exists_of_mem_mapM hvalues (BTreeMap.mem_of_mem_ofList hp)
  obtain ⟨dot, -, hp⟩ := bind_eq_ok.1 hp
  cases hp
  exact List.fst_mem_of_mem_zipIdx hq

/-- An entry whose elements all have dots reads back exactly them. -/
lemma rawBuffer_of_aligned (h : e.Aligned) :
    e.rawBuffer = .ok ⟨e.crdt.register, .ofList e.elements, .ofList e.removals⟩ := by
  have hget : ∀ p ∈ e.data.zipIdx, (do return (p.1, ← e.dotForElement p.2)) =
      (.ok (p.1, e.crdt.dots.getD p.2 ⟨.zero, 0⟩) : Except EntryError _) := by
    intro p hp
    have hlt : p.2 < e.crdt.dots.length := by
      have := (List.mem_zipIdx' hp).1
      rw [Aligned] at h
      omega
    rw [dotForElement, List.getD_eq_getElem?_getD, List.getElem?_eq_getElem hlt]
    rfl
  have hzip : e.data.zipIdx.map (fun p => (p.1, e.crdt.dots.getD p.2 ⟨.zero, 0⟩)) =
      e.elements := by
    rw [Aligned] at h
    refine List.ext_getElem (by simp [elements, h]) fun i h1 h2 => ?_
    have hi : i < e.crdt.dots.length := by simpa [h] using h1
    simp [elements, hi]
  rw [rawBuffer, mapM_eq_ok_map hget, hzip]
  rfl

end Entry

/-! ### Normalized buffers -/

def NormalBuffer (codec : Codec) (b : DataTopicBuffer) : Prop :=
  ∀ v d, b.values.get? v = some d →
    (∀ f, b.register = some f → f ≤ d.version) ∧
      ∀ r, b.removes.get? (codec.digest v) = some r → r < d

namespace DataTopicBuffer

variable {b c : DataTopicBuffer} {register : Option EntryVersion}
  {values : BTreeMap Bytes EntryDot} {removes : BTreeMap ElementDigest EntryDot}

lemma atOrAfter_iff {d : EntryDot} :
    atOrAfter register d = true ↔ ∀ f, register = some f → f ≤ d.version := by
  cases register <;> simp [atOrAfter]

lemma coveredBy_iff {v : Bytes} {d : EntryDot} : coveredBy codec removes v d = true ↔
    ∃ r, removes.get? (codec.digest v) = some r ∧ d ≤ r := by
  rw [coveredBy]
  rcases hr : removes.get? (codec.digest v) with _ | r
  · simp
  · have hne : removes.entries ≠ [] := List.ne_nil_of_mem (removes.mem_entries.2 hr)
    simp [hne]

/-- The removes of a normalized buffer: those at or after the register. -/
lemma get?_new_removes (k : ElementDigest) {r : EntryDot} :
    (new codec register values removes).removes.get? k = some r ↔
      removes.get? k = some r ∧ ∀ f, register = some f → f ≤ r.version := by
  rw [new, BTreeMap.get?_retain, Option.filter_eq_some_iff, atOrAfter_iff]

/-- The elements of a normalized buffer: those at or after the register and uncovered. -/
lemma get?_new_values (v : Bytes) {d : EntryDot} :
    (new codec register values removes).values.get? v = some d ↔
      values.get? v = some d ∧ (∀ f, register = some f → f ≤ d.version) ∧
        ∀ r, removes.get? (codec.digest v) = some r → r < d := by
  rw [new, BTreeMap.get?_retain, BTreeMap.get?_retain, Option.filter_eq_some_iff,
    Option.filter_eq_some_iff, atOrAfter_iff, Bool.not_eq_true', ← Bool.not_eq_true,
    coveredBy_iff, and_assoc]
  refine and_congr_right fun _ => and_congr_right fun hd => ?_
  rw [not_exists]
  refine forall_congr' fun r => ?_
  rw [BTreeMap.get?_retain, Option.filter_eq_some_iff, atOrAfter_iff, not_and, not_le]
  constructor
  · intro h hr
    by_contra hdr
    -- a remove at or above an element past the register is past the register itself
    exact hdr (h ⟨hr, fun f hf => (hd f hf).trans (EntryDot.version_le (not_lt.1 hdr))⟩)
  · exact fun h hr => h hr.1

lemma normalBuffer_new : NormalBuffer codec (new codec register values removes) := by
  intro v d h
  obtain ⟨-, hreg, hcov⟩ := (get?_new_values v).1 h
  exact ⟨hreg, fun r hr => hcov r ((get?_new_removes _).1 hr).1⟩

lemma remove_of_get? {v : Bytes} {d : EntryDot} (h : b.values.get? v = some d) :
    b.remove codec v = { b with
      values := b.values.remove v
      removes := b.removes.insertMax (codec.digest v) d } := by
  rw [remove, h]

lemma remove_of_none {v : Bytes} (h : b.values.get? v = none) : b.remove codec v = b := by
  rw [remove, h]

/-- Removing one payload keeps a buffer normalized when its payloads have distinct digests. -/
lemma normalBuffer_remove {v : Bytes} (hb : NormalBuffer codec b)
    (hinj : ∀ u w d d', b.values.get? u = some d → b.values.get? w = some d' →
      codec.digest u = codec.digest w → u = w) : NormalBuffer codec (b.remove codec v) := by
  rcases hv : b.values.get? v with _ | dv
  · rwa [remove_of_none hv]
  rw [remove_of_get? hv]
  intro w d hw
  rw [BTreeMap.get?_remove] at hw
  split at hw
  · cases hw
  rename_i hne
  refine ⟨(hb w d hw).1, fun r hr => (hb w d hw).2 r ?_⟩
  have hdig : codec.digest w ≠ codec.digest v := fun h => hne (hinj w v d dv hw hv h)
  rwa [BTreeMap.get?_insertMax, if_neg hdig] at hr

lemma get?_remove_values {u v : Bytes} {d : EntryDot}
    (h : (b.remove codec v).values.get? u = some d) : b.values.get? u = some d := by
  rcases hv : b.values.get? v with _ | dv
  · rwa [remove_of_none hv] at h
  rw [remove_of_get? hv, BTreeMap.get?_remove] at h
  split at h
  · cases h
  · exact h

lemma foldl_remove_spec (hb : NormalBuffer codec b)
    (hinj : ∀ u w d d', b.values.get? u = some d → b.values.get? w = some d' →
      codec.digest u = codec.digest w → u = w) (l : List Bytes) :
    NormalBuffer codec (l.foldl (remove codec) b) ∧
      ∀ u d, (l.foldl (remove codec) b).values.get? u = some d → b.values.get? u = some d := by
  induction l generalizing b with
  | nil => exact ⟨hb, fun _ _ h => h⟩
  | cons v l ih =>
    obtain ⟨h1, h2⟩ := ih (b := b.remove codec v) (normalBuffer_remove hb hinj)
      fun u w d d' hu hw => hinj u w d d' (get?_remove_values hu) (get?_remove_values hw)
    exact ⟨h1, fun u d hu => get?_remove_values (h2 u d hu)⟩

/-- A remove of `k` at or above `r`, or a register past `r`: no add of `k` at or below `r` can
stand. -/
def Shadows (b : DataTopicBuffer) (k : ElementDigest) (r : EntryDot) : Prop :=
  (∃ d, b.removes.get? k = some d ∧ r ≤ d) ∨ ∃ f, b.register = some f ∧ r.version < f

variable {k : ElementDigest} {r : EntryDot}

lemma shadows_new (h : Shadows ⟨register, values, removes⟩ k r) :
    (new codec register values removes).Shadows k r := by
  rcases h with ⟨d, hd, hr⟩ | h
  · by_cases hf : ∀ f, register = some f → f ≤ d.version
    · exact Or.inl ⟨d, (get?_new_removes k).2 ⟨hd, hf⟩, hr⟩
    · -- the register has risen past the remove, hence past everything it covers
      simp only [not_forall, not_le] at hf
      obtain ⟨f, hf, hlt⟩ := hf
      exact Or.inr ⟨f, hf, (EntryDot.version_le hr).trans_lt hlt⟩
  · exact Or.inr h

lemma shadows_join (h : b.Shadows k r) : (b.join codec c).Shadows k r := by
  refine shadows_new ?_
  rcases h with ⟨d, hd, hr⟩ | ⟨f, hf, hr⟩
  · obtain ⟨d', hdd', hget⟩ := exists_omax_left (p := c.removes.get? k) hd
    exact Or.inl ⟨d', by rw [BTreeMap.get?_join, hget], hr.trans hdd'⟩
  · obtain ⟨f', hff', hget⟩ := exists_omax_left (p := c.register) hf
    exact Or.inr ⟨f', hget, hr.trans_le hff'⟩

lemma shadows_remove (h : b.Shadows k r) (v : Bytes) : (b.remove codec v).Shadows k r := by
  rcases hv : b.values.get? v with _ | dv
  · rwa [remove_of_none hv]
  rw [remove_of_get? hv]
  rcases h with ⟨d, hd, hr⟩ | h
  · left
    rw [BTreeMap.get?_insertMax]
    split
    · rename_i hk
      obtain ⟨d', hdd', hget⟩ := exists_omax_left (p := some dv) (hk ▸ hd)
      exact ⟨d', hget, hr.trans hdd'⟩
    · exact ⟨d, hd, hr⟩
  · exact Or.inr h

lemma shadows_foldl_remove (h : b.Shadows k r) (l : List Bytes) :
    (l.foldl (remove codec) b).Shadows k r := by
  induction l generalizing b with
  | nil => exact h
  | cons v l ih => exact ih (shadows_remove h v)

end DataTopicBuffer

/-! ### Writing a buffer back -/

namespace Entry

variable {e other : Entry} {b : DataTopicBuffer} {x : Option ℕ}

lemma aligned_materialize : (e.materializeTopicBuffer b x).Aligned := by
  simp [Aligned, materializeTopicBuffer]

lemma elements_materialize : (e.materializeTopicBuffer b x).elements =
    (sortSkip (b.values.entries.map fun p => (toLex (p.2, p.1) : EntryDot ×ₗ Bytes))
      (b.values.entries.length - e.kind.maxDataLen)).map fun p => ((ofLex p).2, (ofLex p).1) := by
  simp only [elements, materializeTopicBuffer, List.zip_map', List.length_map]

lemma removals_materialize : (e.materializeTopicBuffer b x).removals =
    (sortSkip (b.removes.entries.map fun p => (toLex (p.2, p.1) : EntryDot ×ₗ ElementDigest))
      (e.kind.tombstoneBound.truncated b.removes.entries.length)).map
        fun p => ((ofLex p).2, (ofLex p).1) := by
  simp only [removals, materializeTopicBuffer, List.map_map, List.length_map]
  rfl

lemma mem_elements_materialize {p : Bytes × EntryDot}
    (h : p ∈ (e.materializeTopicBuffer b x).elements) : b.values.get? p.1 = some p.2 := by
  rw [elements_materialize, List.mem_map] at h
  obtain ⟨q, hq, rfl⟩ := h
  obtain ⟨q', hq', rfl⟩ := List.mem_map.1 (mem_of_mem_sortSkip hq)
  exact b.values.mem_entries.1 hq'

lemma mem_removals_materialize {p : ElementDigest × EntryDot}
    (h : p ∈ (e.materializeTopicBuffer b x).removals) : b.removes.get? p.1 = some p.2 := by
  rw [removals_materialize, List.mem_map] at h
  obtain ⟨q, hq, rfl⟩ := h
  obtain ⟨q', hq', rfl⟩ := List.mem_map.1 (mem_of_mem_sortSkip hq)
  exact b.removes.mem_entries.1 hq'

/-- A data topic keeps every remove. -/
lemma mem_removals_materialize_data (hk : e.kind = .data) {p : ElementDigest × EntryDot} :
    p ∈ (e.materializeTopicBuffer b x).removals ↔ b.removes.get? p.1 = some p.2 := by
  refine ⟨mem_removals_materialize, fun h => ?_⟩
  rw [removals_materialize, hk, List.mem_map]
  refine ⟨toLex (p.2, p.1), ?_, rfl⟩
  rw [sortSkip, EntryKind.tombstoneBound, TombstoneBound.truncated, List.drop_zero,
    List.mem_insertionSort]
  exact List.mem_map.2 ⟨p, b.removes.mem_entries.2 h, rfl⟩

lemma mem_removals {t : EntryTombstone} :
    t ∈ e.crdt.tombstones ↔ (t.element, t.dot) ∈ e.removals := by
  simp only [removals, List.mem_map, Prod.mk.injEq]
  constructor
  · exact fun h => ⟨t, h, rfl, rfl⟩
  · rintro ⟨t', h, h1, h2⟩
    cases t
    cases t'
    cases h1
    cases h2
    exact h

structure Normal (codec : Codec) (e : Entry) : Prop where
  aligned : e.Aligned
  pastRegister : ∀ p ∈ e.elements, ∀ f, e.crdt.register = some f → f ≤ p.2.version
  uncovered : ∀ p ∈ e.elements, ∀ t ∈ e.crdt.tombstones, t.element = codec.digest p.1 →
    t.dot < p.2

lemma normal_materialize (hb : NormalBuffer codec b) :
    (e.materializeTopicBuffer b x).Normal codec := by
  refine ⟨aligned_materialize, fun p hp => ?_, fun p hp t ht hte => ?_⟩
  · exact (hb p.1 p.2 (mem_elements_materialize hp)).1
  · refine (hb p.1 p.2 (mem_elements_materialize hp)).2 t.dot ?_
    rw [← hte]
    exact mem_removals_materialize (mem_removals.1 ht)

lemma mem_data_materialize {v : Bytes} (h : v ∈ (e.materializeTopicBuffer b x).data) :
    ∃ d, b.values.get? v = some d := by
  obtain ⟨q, hq, rfl⟩ := List.mem_map.1 h
  obtain ⟨q', hq', rfl⟩ := List.mem_map.1 (mem_of_mem_sortSkip hq)
  exact ⟨q'.2, b.values.mem_entries.1 hq'⟩

/-! ### Operations as buffer operations -/

lemma join_ok {z : Entry} (h : e.join codec other = .ok z) :
    ∃ a c, e.rawBuffer = .ok a ∧ other.rawBuffer = .ok c ∧
      z = e.materializeTopicBuffer (a.join codec c) (e.joinedLifetime other) := by
  obtain ⟨_, -, h⟩ := bind_eq_ok.1 h
  obtain ⟨a, ha, h⟩ := bind_eq_ok.1 h
  obtain ⟨c, hc, h⟩ := bind_eq_ok.1 h
  cases h
  exact ⟨a, c, ha, hc, rfl⟩

lemma tombstone_ok {z : Entry} (h : e.tombstone codec other = .ok z) :
    ∃ (a : DataTopicBuffer) (l : List Bytes), e.rawBuffer = .ok a ∧ z = e.materializeTopicBuffer
      (l.foldl (DataTopicBuffer.remove codec) (.new codec a.register a.values a.removes))
      e.expiresAtMs := by
  obtain ⟨_, -, h⟩ := bind_eq_ok.1 h
  obtain ⟨b, hb, h⟩ := bind_eq_ok.1 h
  obtain ⟨a, ha, hb⟩ := bind_eq_ok.1 hb
  cases hb
  cases h
  exact ⟨a, _, ha, rfl⟩

lemma tryIntoStorageEntry_ok {z : Entry} (h : e.tryIntoStorageEntry codec = .ok z) :
    ∃ a, e.rawBuffer = .ok a ∧
      z = e.materializeTopicBuffer (.new codec a.register a.values a.removes) e.expiresAtMs := by
  obtain ⟨b, hb, h⟩ := bind_eq_ok.1 h
  obtain ⟨a, ha, hb⟩ := bind_eq_ok.1 hb
  cases hb
  cases h
  exact ⟨a, ha, rfl⟩

lemma ensureStampAfter_data {z : Entry} {nowMs : ℕ} {actor : Did} {floor : Option EntryVersion}
    {kind : EntryStampKind} (h : e.ensureStampAfter codec nowMs actor floor kind = .ok z) :
    z.data = e.data := by
  rw [ensureStampAfter] at h
  split at h
  · cases h
    rfl
  · obtain ⟨v, -, h⟩ := bind_eq_ok.1 h
    cases kind with
    | overwrite =>
      obtain ⟨dots, -, h⟩ := bind_eq_ok.1 h
      cases h
      rfl
    | delta =>
      obtain ⟨dots, -, h⟩ := bind_eq_ok.1 h
      cases h
      rfl

/-- An operation is a join with the stamped payload, or a removal. -/
lemma operate_cases {z : Entry} {op : EntryOperation} {nowMs : ℕ} {actor : Did}
    (h : e.operate codec nowMs op actor = .ok z) :
    (∃ y, y.data = op.entry.data ∧ e.join codec y = .ok z) ∨
      e.tombstone codec op.entry = .ok z := by
  cases op with
  | overwrite y =>
    rw [operate, overwrite] at h
    split at h
    · cases h
    · obtain ⟨y', hy', h⟩ := bind_eq_ok.1 h
      exact Or.inl ⟨y', ensureStampAfter_data hy', h⟩
  | extend y =>
    obtain ⟨y', hy', h⟩ := bind_eq_ok.1 h
    exact Or.inl ⟨y', ensureStampAfter_data hy', h⟩
  | tombstone y => exact Or.inr h

/-! ### Shadowed adds -/

/-- A remove of `k` at or above `r`, or a register past `r`. -/
def Shadows (e : Entry) (k : ElementDigest) (r : EntryDot) : Prop :=
  (∃ t ∈ e.crdt.tombstones, t.element = k ∧ r ≤ t.dot) ∨
    ∃ f, e.crdt.register = some f ∧ r.version < f

variable {k : ElementDigest} {r : EntryDot}

lemma Shadows.rawBuffer {a : DataTopicBuffer} (h : e.Shadows k r) (ha : e.rawBuffer = .ok a) :
    a.Shadows k r := by
  obtain ⟨hreg, hrem, -⟩ := rawBuffer_ok ha
  rcases h with ⟨t, ht, rfl, hr⟩ | ⟨f, hf, hr⟩
  · obtain ⟨d, hd, hget⟩ := BTreeMap.exists_insertAll_of_mem .empty (mem_removals.1 ht)
    exact Or.inl ⟨d, by rw [hrem]; exact hget, hr.trans hd⟩
  · exact Or.inr ⟨f, hreg.trans hf, hr⟩

lemma shadows_materialize (hk : e.kind = .data) (h : b.Shadows k r) :
    (e.materializeTopicBuffer b x).Shadows k r := by
  rcases h with ⟨d, hd, hr⟩ | h
  · refine Or.inl ⟨⟨k, d⟩, ?_, rfl, hr⟩
    exact mem_removals.2 ((mem_removals_materialize_data hk).2 hd)
  · exact Or.inr h

lemma Shadows.join {z : Entry} (h : e.Shadows k r) (hk : e.kind = .data)
    (hz : e.join codec other = .ok z) : z.Shadows k r := by
  obtain ⟨a, c, ha, -, rfl⟩ := join_ok hz
  exact shadows_materialize hk (DataTopicBuffer.shadows_join (h.rawBuffer ha))

/-- An operation on a data carrier keeps what its removes and register shadow. -/
lemma Shadows.operate {z : Entry} {op : EntryOperation} {nowMs : ℕ} {actor : Did}
    (h : e.Shadows k r) (hk : e.kind = .data) (hz : e.operate codec nowMs op actor = .ok z) :
    z.Shadows k r := by
  rcases operate_cases hz with ⟨y, -, hz⟩ | hz
  · exact h.join hk hz
  · obtain ⟨a, l, ha, rfl⟩ := tombstone_ok hz
    exact shadows_materialize hk (DataTopicBuffer.shadows_foldl_remove
      (DataTopicBuffer.shadows_new (h.rawBuffer ha)) l)

/-- A normalized entry serves no element it shadows. -/
lemma Normal.not_le_of_shadows (hn : e.Normal codec) (h : e.Shadows k r) {p : Bytes × EntryDot}
    (hp : p ∈ e.elements) (hd : codec.digest p.1 = k) : ¬ p.2 ≤ r := by
  intro hle
  rcases h with ⟨t, ht, hte, hr⟩ | ⟨f, hf, hr⟩
  · exact (hn.uncovered p hp t ht (hte.trans hd.symm)).not_ge (hle.trans hr)
  · exact (hn.pastRegister p hp f hf).not_gt ((EntryDot.version_le hle).trans_lt hr)

end Entry

end Rings
