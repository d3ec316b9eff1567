import Rings.Carrier
import Rings.NormalJoin

/-!
The join of buffers as a join that normalizes.

Registers and maps are joined as they stand, by maxima, and the result is normalized. What
normalizing a side drops could not have mattered: an element below the register or under a
remove of its side is so in the join as well, and so is everything it would have outranked, and
a remove below the register covers only what lies below the register too.
-/

namespace Rings

variable {codec : Codec}

lemma forall_omax_le {α : Type*} [LinearOrder α] {o p : Option α} {P : α → Prop}
    (hP : ∀ a b, a ≤ b → P b → P a) :
    (∀ a, max o p = some a → P a) ↔ (∀ a, o = some a → P a) ∧ ∀ a, p = some a → P a := by
  constructor
  · intro h
    refine ⟨fun a ha => ?_, fun a ha => ?_⟩
    · obtain ⟨b, hab, hb⟩ := exists_omax_left (p := p) ha
      exact hP a b hab (h b hb)
    · obtain ⟨b, hab, hb⟩ := exists_omax_right (o := o) ha
      exact hP a b hab (h b hb)
  · rintro ⟨ho, hp⟩ a ha
    exact (omax_eq_some.1 ha).1.elim (ho a) (hp a)

namespace DataTopicBuffer

variable {a b c : DataTopicBuffer}

/-- The join before normalization: the greater register, and both maps by maxima. -/
def union (a b : DataTopicBuffer) : DataTopicBuffer :=
  ⟨max a.register b.register, a.values.join b.values, a.removes.join b.removes⟩

def normalize (codec : Codec) (b : DataTopicBuffer) : DataTopicBuffer :=
  new codec b.register b.values b.removes

lemma join_eq_normalize (a b : DataTopicBuffer) : a.join codec b = (a.union b).normalize codec :=
  rfl

lemma union_comm (a b : DataTopicBuffer) : a.union b = b.union a := by
  refine DataTopicBuffer.ext (omax_comm _ _) (BTreeMap.ext_get? fun v => ?_)
    (BTreeMap.ext_get? fun k => ?_)
  · simp only [union, BTreeMap.get?_join, omax_comm]
  · simp only [union, BTreeMap.get?_join, omax_comm]

lemma union_assoc (a b c : DataTopicBuffer) : (a.union b).union c = a.union (b.union c) := by
  refine DataTopicBuffer.ext (omax_assoc _ _ _) (BTreeMap.ext_get? fun v => ?_)
    (BTreeMap.ext_get? fun k => ?_)
  · simp only [union, BTreeMap.get?_join, omax_assoc]
  · simp only [union, BTreeMap.get?_join, omax_assoc]

lemma union_self (a : DataTopicBuffer) : a.union a = a := by
  refine DataTopicBuffer.ext (omax_self _) (BTreeMap.ext_get? fun v => ?_)
    (BTreeMap.ext_get? fun k => ?_)
  · simp only [union, BTreeMap.get?_join, omax_self]
  · simp only [union, BTreeMap.get?_join, omax_self]

/-- The dots a register leaves standing. -/
def Above (register : Option EntryVersion) (d : EntryDot) : Prop :=
  ∀ f, register = some f → f ≤ d.version

lemma Above.mono {register : Option EntryVersion} {d d' : EntryDot} (h : Above register d)
    (hle : d ≤ d') : Above register d' :=
  fun f hf => (h f hf).trans (EntryDot.version_le hle)

/-- The dots past every remove of an element. -/
def Past (removes : BTreeMap ElementDigest EntryDot) (k : ElementDigest) (d : EntryDot) : Prop :=
  ∀ r, removes.get? k = some r → r < d

lemma above_union {d : EntryDot} :
    Above (max a.register b.register) d ↔ Above a.register d ∧ Above b.register d :=
  forall_omax_le fun _ _ hle h => hle.trans h

lemma past_union {k : ElementDigest} {d : EntryDot} :
    Past (a.removes.join b.removes) k d ↔ Past a.removes k d ∧ Past b.removes k d := by
  simp only [Past, BTreeMap.get?_join]
  exact forall_omax_le fun _ _ hle h => hle.trans_lt h

lemma past_normalize {k : ElementDigest} {d : EntryDot} (h : Above a.register d) :
    Past (a.normalize codec).removes k d ↔ Past a.removes k d := by
  constructor
  · intro hpast r hr
    by_contra hdr
    exact hdr (hpast r ((get?_new_removes k).2 ⟨hr, h.mono (not_lt.1 hdr)⟩))
  · exact fun hpast r hr => hpast r ((get?_new_removes k).1 hr).1

lemma get?_union_values (v : Bytes) {d : EntryDot} :
    (a.union b).values.get? v = some d ↔ (a.values.get? v = some d ∨ b.values.get? v = some d) ∧
      (∀ d', a.values.get? v = some d' → d' ≤ d) ∧ ∀ d', b.values.get? v = some d' → d' ≤ d := by
  rw [union, BTreeMap.get?_join, omax_eq_some]

lemma get?_union_removes (k : ElementDigest) {r : EntryDot} :
    (a.union b).removes.get? k = some r ↔
      (a.removes.get? k = some r ∨ b.removes.get? k = some r) ∧
        (∀ r', a.removes.get? k = some r' → r' ≤ r) ∧
          ∀ r', b.removes.get? k = some r' → r' ≤ r := by
  rw [union, BTreeMap.get?_join, omax_eq_some]

/-- A remove of a side, kept or not, does not outrank one at or above the register of its side. -/
lemma removes_le_normalize {k : ElementDigest} {r : EntryDot} (h : Above a.register r) :
    (∀ r', (a.normalize codec).removes.get? k = some r' → r' ≤ r) ↔
      ∀ r', a.removes.get? k = some r' → r' ≤ r := by
  constructor
  · intro hle r' hr'
    by_contra hrr
    exact hrr (hle r' ((get?_new_removes k).2 ⟨hr', h.mono (not_le.1 hrr).le⟩))
  · exact fun hle r' hr' => hle r' ((get?_new_removes k).1 hr').1

/-- An element of a side, kept or not, does not outrank one at or above the register of its
side and past the removes of it. -/
lemma values_le_normalize {v : Bytes} {d : EntryDot} (h : Above a.register d)
    (hpast : Past a.removes (codec.digest v) d) :
    (∀ d', (a.normalize codec).values.get? v = some d' → d' ≤ d) ↔
      ∀ d', a.values.get? v = some d' → d' ≤ d := by
  constructor
  · intro hle d' hd'
    by_contra hdd
    have hlt := not_le.1 hdd
    exact hdd (hle d' ((get?_new_values v).2
      ⟨hd', h.mono hlt.le, fun r hr => (hpast r hr).trans hlt⟩))
  · exact fun hle d' hd' => hle d' ((get?_new_values v).1 hd').1

/-- **Normalizing the sides of a join first makes no difference.** -/
lemma normalize_union (a b : DataTopicBuffer) :
    ((a.normalize codec).union (b.normalize codec)).normalize codec =
      (a.union b).normalize codec := by
  refine DataTopicBuffer.ext rfl (BTreeMap.ext_get? fun v => Option.ext fun d => ?_)
    (BTreeMap.ext_get? fun k => Option.ext fun r => ?_)
  · -- an element is read past both registers and past every remove of its payload
    have hread : ∀ {x y : DataTopicBuffer}, ((x.union y).normalize codec).values.get? v = some d ↔
        (Above x.register d ∧ Above y.register d) ∧
          (Past x.removes (codec.digest v) d ∧ Past y.removes (codec.digest v) d) ∧
            (x.values.get? v = some d ∨ y.values.get? v = some d) ∧
              (∀ d', x.values.get? v = some d' → d' ≤ d) ∧
                ∀ d', y.values.get? v = some d' → d' ≤ d := by
      intro x y
      rw [← get?_union_values, ← above_union, ← past_union]
      refine (get?_new_values v).trans ?_
      rw [and_comm, and_assoc]
      rfl
    rw [hread, hread]
    refine and_congr_right fun (⟨ha, hb⟩ : Above a.register d ∧ Above b.register d) => ?_
    rw [past_normalize ha, past_normalize hb]
    refine and_congr_right fun ⟨hpa, hpb⟩ => ?_
    rw [values_le_normalize ha hpa, values_le_normalize hb hpb, normalize, normalize,
      get?_new_values, get?_new_values]
    refine and_congr_left fun _ => or_congr ?_ ?_
    · exact and_iff_left ⟨ha, hpa⟩
    · exact and_iff_left ⟨hb, hpb⟩
  · have hread : ∀ {x y : DataTopicBuffer}, ((x.union y).normalize codec).removes.get? k = some r ↔
        (Above x.register r ∧ Above y.register r) ∧
          (x.removes.get? k = some r ∨ y.removes.get? k = some r) ∧
            (∀ r', x.removes.get? k = some r' → r' ≤ r) ∧
              ∀ r', y.removes.get? k = some r' → r' ≤ r := by
      intro x y
      rw [← get?_union_removes, ← above_union]
      exact (get?_new_removes k).trans and_comm
    rw [hread, hread]
    refine and_congr_right fun (⟨ha, hb⟩ : Above a.register r ∧ Above b.register r) => ?_
    rw [removes_le_normalize ha, removes_le_normalize hb, normalize, normalize,
      get?_new_removes, get?_new_removes]
    refine and_congr_left fun _ => or_congr ?_ ?_
    · exact and_iff_left ha
    · exact and_iff_left hb

def normalJoin (codec : Codec) : NormalJoin DataTopicBuffer where
  sup := union
  norm := normalize codec
  comm := union_comm
  assoc := union_assoc
  self := union_self
  sides := normalize_union

/-- Every digest function makes the join a semilattice on normalized buffers and the
normalization a closure, and raw sides may be joined and normalized once. -/
theorem buffer_join_laws (codec : Codec) :
    ((∀ a : DataTopicBuffer, a.normalize codec = a → a.join codec a = a) ∧
      (∀ a b : DataTopicBuffer, a.join codec b = b.join codec a) ∧
      ∀ a b c : DataTopicBuffer, a.normalize codec = a → b.normalize codec = b →
        c.normalize codec = c → (a.join codec b).join codec c = a.join codec (b.join codec c)) ∧
    (∀ b : DataTopicBuffer, (b.normalize codec).normalize codec = b.normalize codec) ∧
    (∀ a b : DataTopicBuffer, (a.join codec b).normalize codec = a.join codec b) ∧
    (∀ a b : DataTopicBuffer,
      a.join codec b = (a.normalize codec).join codec (b.normalize codec)) ∧
    ∀ (e other : Entry) (left right : DataTopicBuffer), e.validateSameCarrier other = .ok () →
      e.topicBuffer codec = .ok left → other.topicBuffer codec = .ok right →
        e.join codec other = .ok
          (e.materializeTopicBuffer (left.join codec right) (e.joinedLifetime other)) := by
  refine ⟨⟨fun a ha => ?_, fun a b => ?_, fun a b c ha _ hc => ?_⟩, fun b => ?_, fun a b => ?_,
    fun a b => ?_, fun e other left right hsame hleft hright => ?_⟩
  · exact (normalJoin codec).join_self ha
  · exact (normalJoin codec).join_comm a b
  · exact (normalJoin codec).join_assoc ha b hc
  · exact (normalJoin codec).norm_norm b
  · exact (normalJoin codec).normal_join a b
  · exact ((normalJoin codec).join_norm a b).symm
  · obtain ⟨a, ha, hleft⟩ := bind_eq_ok.1 hleft
    obtain ⟨b, hb, hright⟩ := bind_eq_ok.1 hright
    cases hleft
    cases hright
    have hraw : a.join codec b = (a.normalize codec).join codec (b.normalize codec) :=
      ((normalJoin codec).join_norm a b).symm
    rw [Entry.join, hsame, ha, hb]
    change Except.ok (e.materializeTopicBuffer (a.join codec b) _) = _
    rw [hraw]
    rfl

end DataTopicBuffer

end Rings
