import Rings.BufferLaws
import Rings.Convergence
import Rings.LwwRetire

/-!
Retirement and replication.

Retiring an entry at a clock retires its element set at two thresholds of the dot order: adds
at the horizon, removes and the register at the horizon and the skew. So retiring commutes with
the join, cap included, retiring twice is retiring once at the later clock, and a retired entry
is stored as it stands.
-/

namespace Rings

namespace ElementRetention

variable {r : ElementRetention} {s t nowMs : ℕ}

lemma saturatingAdd_mono {top a b c d : ℕ} (hac : a ≤ c) (hbd : b ≤ d) :
    saturatingAdd top a b ≤ saturatingAdd top c d := by
  simp only [saturatingAdd]
  omega

/-- What is retired at one dot is retired at every earlier one. -/
lemma retiresAdd_of_le {d d' : EntryDot} (h : d ≤ d') (hr : r.retiresAdd nowMs d' = true) :
    r.retiresAdd nowMs d = true := by
  exact decide_eq_true
    ((saturatingAdd_mono (EntryDot.logicalTimeMs_le h) le_rfl).trans (of_decide_eq_true hr))

lemma retiresRemove_of_le {v w : EntryVersion} (h : v ≤ w)
    (hr : r.retiresRemove nowMs w = true) : r.retiresRemove nowMs v = true := by
  exact decide_eq_true
    ((saturatingAdd_mono (EntryVersion.logicalTimeMs_le h) le_rfl).trans (of_decide_eq_true hr))

/-- With the longer horizon for removes, a retired remove covers retired adds only. -/
lemma retiresAdd_of_retiresRemove (h : r.addHorizonMs ≤ r.removeHorizonMs) {d : EntryDot}
    (hr : r.retiresRemove nowMs d.version = true) : r.retiresAdd nowMs d = true := by
  exact decide_eq_true ((saturatingAdd_mono le_rfl h).trans (of_decide_eq_true hr))

lemma retiresAdd_max (d : EntryDot) :
    r.retiresAdd (max s t) d = (r.retiresAdd s d || r.retiresAdd t d) := by
  simp only [retiresAdd, le_max_iff, Bool.decide_or]

lemma retiresRemove_max (v : EntryVersion) :
    r.retiresRemove (max s t) v = (r.retiresRemove s v || r.retiresRemove t v) := by
  simp only [retiresRemove, le_max_iff, Bool.decide_or]

def thresholds (r : ElementRetention) (h : r.addHorizonMs ≤ r.removeHorizonMs) (nowMs : ℕ) :
    LwwSet.Thresholds EntryDot where
  adds d := r.retiresAdd nowMs d = false
  removes d := r.retiresRemove nowMs d.version = false
  decAdds := inferInstance
  decRemoves := inferInstance
  upperAdds d d' hle hd := by
    by_contra hd'
    rw [Bool.not_eq_false] at hd'
    rw [retiresAdd_of_le hle hd'] at hd
    cases hd
  upperRemoves d d' hle hd := by
    by_contra hd'
    rw [Bool.not_eq_false] at hd'
    rw [retiresRemove_of_le (EntryDot.version_le hle) hd'] at hd
    cases hd
  lower d hd := by
    by_contra hr
    rw [Bool.not_eq_false] at hr
    rw [retiresAdd_of_retiresRemove h hr] at hd
    cases hd

end ElementRetention

lemma EntryCrdt.eq_of_fields {a b : EntryCrdt} (hregister : a.register = b.register)
    (hdots : a.dots = b.dots) (htombs : a.tombstones = b.tombstones) : a = b := by
  cases a
  cases b
  cases hregister
  cases hdots
  cases htombs
  rfl

namespace Entry

variable {codec : Codec} {e x y : Entry} {r : ElementRetention} {s t nowMs : ℕ}

@[simp] lemma horizonRetired_did : (e.horizonRetiredUnder r nowMs).did = e.did := by
  rw [horizonRetiredUnder]
  split <;> rfl

lemma sameCarrier_horizonRetired : SameCarrier e (e.horizonRetiredUnder r nowMs) :=
  ⟨horizonRetired_kind.symm, horizonRetired_did.symm⟩

lemma retired_toSet (h : r.addHorizonMs ≤ r.removeHorizonMs) (ha : e.Aligned) (nowMs : ℕ) :
    LwwSet.Retired (r.thresholds h nowMs) e.toSet (e.horizonRetiredUnder r nowMs).toSet := by
  obtain ⟨-, helements, htombs, hregister⟩ := horizonRetired_spec r nowMs ha
  refine ⟨?_, ?_, fun d hd => ?_⟩
  · ext q
    simp only [toSet, mem_pairSet, helements, List.mem_filter, Finset.mem_filter,
      Bool.not_eq_true']
    rfl
  · ext q
    have hremovals : (e.horizonRetiredUnder r nowMs).removals =
        e.removals.filter fun p => !r.retiresRemove nowMs p.2.version := by
      rw [removals, htombs, removals, List.filter_map]
      rfl
    simp only [toSet, mem_pairSet, hremovals, List.mem_filter, Finset.mem_filter,
      Bool.not_eq_true']
    rfl
  · -- a retired register lies below every dot that stays
    change (∀ f, (e.horizonRetiredUnder r nowMs).crdt.register = some f → f ≤ d.version) ↔
      ∀ f, e.crdt.register = some f → f ≤ d.version
    change r.retiresRemove nowMs d.version = false at hd
    rw [hregister]
    constructor
    · intro hle f hf
      cases hretired : r.retiresRemove nowMs f with
      | false => exact hle f (by rw [hf, Option.filter_some, hretired]; rfl)
      | true =>
        by_contra hlt
        rw [ElementRetention.retiresRemove_of_le (not_le.1 hlt).le hretired] at hd
        cases hd
    · exact fun hle f hf => hle f (Option.filter_eq_some_iff.1 hf).1

lemma Canonical.horizonRetired (h : e.Canonical codec) (hr : r.addHorizonMs ≤ r.removeHorizonMs)
    (nowMs : ℕ) : (e.horizonRetiredUnder r nowMs).Canonical codec := by
  obtain ⟨haligned, helements, htombs, -⟩ := horizonRetired_spec r nowMs h.aligned
  have hadds : (e.horizonRetiredUnder r nowMs).elements.Sublist e.elements :=
    helements ▸ List.filter_sublist
  have hremoves : (e.horizonRetiredUnder r nowMs).removals.Sublist e.removals := by
    rw [removals, htombs, removals]
    exact List.filter_sublist.map _
  refine ⟨haligned, h.adds.sublist (hadds.map _), h.removes.sublist (hremoves.map _),
    (retired_toSet hr h.aligned nowMs).normal h.normal, ?_, ?_⟩
  · rw [horizonRetired_kind]
    exact hadds.length_le.trans h.addsLen
  · rw [horizonRetired_kind]
    exact (Nat.cast_le.2 hremoves.length_le).trans h.removesLen

/-- A filter that keeps an upper set commutes with the maximum. -/
lemma filter_omax {α : Type} [LinearOrder α] {p : α → Bool}
    (hp : ∀ a b, a ≤ b → p a = true → p b = true) (o o' : Option α) :
    (max o o').filter p = max (o.filter p) (o'.filter p) := by
  refine Option.ext fun a => ?_
  rw [Option.filter_eq_some_iff, omax_eq_some, omax_eq_some, Option.filter_eq_some_iff,
    Option.filter_eq_some_iff]
  constructor
  · rintro ⟨⟨hor, h1, h2⟩, ha⟩
    exact ⟨hor.imp (⟨·, ha⟩) (⟨·, ha⟩), fun b hb => h1 b (Option.filter_eq_some_iff.1 hb).1,
      fun b hb => h2 b (Option.filter_eq_some_iff.1 hb).1⟩
  · rintro ⟨hor, h1, h2⟩
    have ha : p a = true := hor.elim (·.2) (·.2)
    -- what outranks a kept value is kept
    have hup : ∀ {o : Option α}, (∀ b, o.filter p = some b → b ≤ a) → ∀ b, o = some b → b ≤ a := by
      intro o h b hb
      by_contra hlt
      exact hlt (h b (Option.filter_eq_some_iff.2 ⟨hb, hp a b (not_le.1 hlt).le ha⟩))
    exact ⟨⟨hor.imp (·.1) (·.1), hup h1, hup h2⟩, ha⟩

/-- **Retiring commutes with the join**, cap included. -/
lemma horizonRetired_join (hr : r.addHorizonMs ≤ r.removeHorizonMs) (hx : x.Canonical codec)
    (hy : y.Canonical codec) (h : SameCarrier x y) (nowMs : ℕ) :
    ∃ z, x.join codec y = .ok z ∧ (x.horizonRetiredUnder r nowMs).join codec
      (y.horizonRetiredUnder r nowMs) = .ok (z.horizonRetiredUnder r nowMs) := by
  obtain ⟨z, hz, hcan, hsame, hregister, hexpires, hset⟩ := exists_join hx hy h
  obtain ⟨w, hw, hcan', hsame', hregister', hexpires', hset'⟩ :=
    exists_join (hx.horizonRetired hr nowMs) (hy.horizonRetired hr nowMs)
      (sameCarrier_horizonRetired.symm.trans (h.trans sameCarrier_horizonRetired))
  refine ⟨z, hz, hw.trans (congrArg Except.ok ?_)⟩
  have hxr := horizonRetired_spec r nowMs hx.aligned
  have hyr := horizonRetired_spec r nowMs hy.aligned
  have hzr := horizonRetired_spec r nowMs hcan.aligned
  have hmerge := LwwSet.Retired.merge codec.digest x.kind.maxDataLen x.kind.tombstoneBound.kept
    (retired_toSet hr hx.aligned nowMs) (retired_toSet hr hy.aligned nowMs)
  have hretired := retired_toSet hr hcan.aligned nowMs
  rw [horizonRetired_kind] at hset'
  rw [← hset'] at hmerge
  rw [hset] at hretired
  refine hcan'.ext_toSet (hcan.horizonRetired hr nowMs) ?_ ?_ ?_ ?_ ?_
  · exact hsame'.symm.trans (sameCarrier_horizonRetired.symm.trans
      (hsame.trans sameCarrier_horizonRetired))
  · rw [hregister', hxr.2.2.2, hyr.2.2.2, hzr.2.2.2, hregister]
    refine (filter_omax (fun a b hab ha => ?_) _ _).symm
    by_contra hb
    simp only [Bool.not_eq_true', Bool.not_eq_false] at ha hb
    rw [ElementRetention.retiresRemove_of_le hab hb] at ha
    cases ha
  · rw [hexpires', horizonRetired_expiresAtMs, horizonRetired_expiresAtMs,
      horizonRetired_expiresAtMs, hexpires]
  · rw [hmerge.adds, hretired.adds]
  · rw [hmerge.removes, hretired.removes]

/-! ### Retiring twice -/

lemma horizonRetired_horizonRetired (hr : r.addHorizonMs ≤ r.removeHorizonMs)
    (h : e.Canonical codec) (s t : ℕ) :
    (e.horizonRetiredUnder r s).horizonRetiredUnder r t = e.horizonRetiredUnder r (max s t) := by
  have hs := h.horizonRetired hr s
  have h1 := retired_toSet hr h.aligned s
  have h2 := retired_toSet hr hs.aligned t
  have h3 := retired_toSet hr h.aligned (max s t)
  refine (hs.horizonRetired hr t).ext_toSet (h.horizonRetired hr (max s t)) ?_ ?_ ?_ ?_ ?_
  · exact sameCarrier_horizonRetired.symm.trans
      (sameCarrier_horizonRetired.symm.trans sameCarrier_horizonRetired)
  · rw [(horizonRetired_spec r t hs.aligned).2.2.2, (horizonRetired_spec r s h.aligned).2.2.2,
      (horizonRetired_spec r (max s t) h.aligned).2.2.2]
    refine Option.ext fun f => ?_
    simp only [Option.filter_eq_some_iff, ElementRetention.retiresRemove_max, Bool.not_or,
      Bool.and_eq_true, and_assoc]
  · simp only [horizonRetired_expiresAtMs]
  · rw [h2.adds, h1.adds, h3.adds, Finset.filter_filter]
    refine Finset.filter_congr fun q _ => ?_
    simp only [ElementRetention.thresholds, ElementRetention.retiresAdd_max,
      Bool.or_eq_false_iff]
  · rw [h2.removes, h1.removes, h3.removes, Finset.filter_filter]
    refine Finset.filter_congr fun q _ => ?_
    simp only [ElementRetention.thresholds, ElementRetention.retiresRemove_max,
      Bool.or_eq_false_iff]

lemma horizonRetired_withoutElements (ha : e.Aligned) (nowMs : ℕ) :
    e.withoutElements.horizonRetiredUnder r nowMs =
      (e.horizonRetiredUnder r nowMs).withoutElements := by
  obtain ⟨-, -, htombs, hregister⟩ := horizonRetired_spec r nowMs ha
  obtain ⟨haligned, helements, htombs', hregister'⟩ :=
    horizonRetired_spec r nowMs (rfl : e.withoutElements.Aligned)
  have hnone : (e.withoutElements.horizonRetiredUnder r nowMs).data = [] := by
    rw [horizonRetiredUnder]
    split <;> rfl
  refine Entry.ext ?_ hnone ?_ (EntryCrdt.eq_of_fields ?_ ?_ ?_) ?_
  · simp [withoutElements]
  · simp [withoutElements]
  · rw [hregister']
    exact hregister.symm
  · rw [Aligned, hnone, List.length_nil] at haligned
    exact List.eq_nil_of_length_eq_zero haligned.symm
  · rw [htombs']
    exact htombs.symm
  · simp [withoutElements]

/-- The projection: retired, and without elements once the bound has elapsed. -/
lemma retiredUnder_eq (ha : e.Aligned) (nowMs : ℕ) : e.retiredUnder (some r) nowMs =
    if e.boundLiveAt nowMs then e.horizonRetiredUnder r nowMs
    else (e.horizonRetiredUnder r nowMs).withoutElements := by
  have haligned := (horizonRetired_spec r nowMs ha).1
  have hempty : (e.horizonRetiredUnder r nowMs).data = [] →
      (e.horizonRetiredUnder r nowMs).withoutElements = e.horizonRetiredUnder r nowMs := by
    intro hnone
    rw [Aligned, hnone, List.length_nil] at haligned
    have hdots := List.eq_nil_of_length_eq_zero haligned.symm
    exact Entry.ext rfl hnone.symm rfl (EntryCrdt.eq_of_fields rfl hdots.symm rfl) rfl
  rw [retiredUnder]
  cases hlive : e.boundLiveAt nowMs with
  | true => simp
  | false =>
    rcases hdata : (e.horizonRetiredUnder r nowMs).data with _ | ⟨v, l⟩
    · simp [hempty hdata]
    · simp

lemma boundLiveAt_max (s t : ℕ) :
    e.boundLiveAt (max s t) = (e.boundLiveAt s && e.boundLiveAt t) := by
  rw [boundLiveAt, boundLiveAt, boundLiveAt]
  cases e.expiresAtMs with
  | none => rfl
  | some expires => simp only [Option.any_some, max_lt_iff, Bool.decide_and]

lemma retiredUnder_retiredUnder (hr : r.addHorizonMs ≤ r.removeHorizonMs)
    (h : e.Canonical codec) (s t : ℕ) :
    (e.retiredUnder (some r) s).retiredUnder (some r) t = e.retiredUnder (some r) (max s t) := by
  have hs := (horizonRetired_spec r s h.aligned).1
  have hboth := horizonRetired_horizonRetired hr h s t
  have hlive : ∀ e' : Entry, e'.expiresAtMs = e.expiresAtMs →
      e'.boundLiveAt t = e.boundLiveAt t := fun e' he' => by rw [boundLiveAt, he', boundLiveAt]
  have hwithout : (e.horizonRetiredUnder r s).withoutElements.horizonRetiredUnder r t =
      (e.horizonRetiredUnder r (max s t)).withoutElements := by
    rw [horizonRetired_withoutElements hs, hboth]
  rw [retiredUnder_eq h.aligned, retiredUnder_eq h.aligned, boundLiveAt_max]
  cases e.boundLiveAt s with
  | true =>
    rw [if_pos rfl, retiredUnder_eq hs, hlive _ horizonRetired_expiresAtMs, hboth, Bool.true_and]
  | false =>
    have hexpires : (e.horizonRetiredUnder r s).withoutElements.expiresAtMs = e.expiresAtMs :=
      horizonRetired_expiresAtMs
    simp only [Bool.false_eq_true, if_false, Bool.false_and]
    rw [retiredUnder_eq (rfl : (e.horizonRetiredUnder r s).withoutElements.Aligned),
      hlive _ hexpires, hwithout]
    split <;> rfl

/-! ### Stored entries -/

lemma Canonical.withoutElements (h : e.Canonical codec) : e.withoutElements.Canonical codec where
  aligned := rfl
  adds := .nil
  removes := h.removes
  normal :=
    { adds := Finset.eq_empty_of_forall_notMem fun q hq => by
        have := LwwSet.visible_subset hq
        simp [toSet, elements, Entry.withoutElements, pairSet] at this
      removes := h.normal.removes }
  addsLen := Nat.zero_le _
  removesLen := h.removesLen

lemma Canonical.normalized (h : e.Canonical codec) : e.Normalized codec := by
  have hself := join_self h
  rw [join_eq h h ⟨rfl, rfl⟩, omax_self] at hself
  rw [Normalized, tryIntoStorageEntry, topicBuffer, rawBuffer_of_aligned h.aligned]
  refine Eq.trans ?_ hself
  have hunion := DataTopicBuffer.union_self
    ⟨e.crdt.register, .ofList e.elements, .ofList e.removals⟩
  rw [joinedBuffer, DataTopicBuffer.join_eq_normalize, hunion]
  rfl

lemma Normalized.normal (h : e.Normalized codec) : e.Normal codec := by
  obtain ⟨b, -, hb⟩ := tryIntoStorageEntry_ok h
  rw [hb]
  exact normal_materialize DataTopicBuffer.normalBuffer_new

lemma horizons_le {kind : EntryKind} (h : ElementRetention.of kind = some r) :
    r.addHorizonMs ≤ r.removeHorizonMs := by
  cases kind with
  | data =>
    cases h
    decide
  | relayMessage => cases h

/-- On stored entries of one data carrier retirement commutes with the join, cap included, and
composes to the later clock, with the projection on top as well; and what is retired is stored
as it stands, with no element below its register or under one of its removes. -/
theorem retirement_laws (codec : Codec) (r : ElementRetention)
    (h : ElementRetention.of .data = some r) :
    (∀ x y : Entry, x.Normalized codec → y.Normalized codec → x.kind = .data → SameCarrier x y →
      ∀ t, ∃ z, x.join codec y = .ok z ∧ (x.horizonRetiredUnder r t).join codec
        (y.horizonRetiredUnder r t) = .ok (z.horizonRetiredUnder r t)) ∧
    ∀ x : Entry, x.Normalized codec → x.kind = .data → ∀ s t,
      (x.horizonRetiredUnder r s).horizonRetiredUnder r t = x.horizonRetiredUnder r (max s t) ∧
      (x.retiredAt codec s).retiredAt codec t = x.retiredAt codec (max s t) ∧
      (x.horizonRetiredUnder r t).Normalized codec ∧ (x.horizonRetiredUnder r t).Normal codec ∧
      (x.retiredAt codec t).Normalized codec ∧ (x.retiredAt codec t).Normal codec := by
  have hr := horizons_le h
  rw [retention_data, Option.some.injEq] at h
  subst h
  refine ⟨fun x y hx hy _ hsame t => horizonRetired_join hr hx.canonical hy.canonical hsame t,
    fun x hx hk s t => ?_⟩
  have hretired := (hx.canonical.horizonRetired hr t).normalized
  have hprojected : (x.retiredAt codec t).Normalized codec := by
    rw [retiredAt_data hk, retiredUnder_eq hx.canonical.aligned]
    split
    · exact hretired
    · exact hretired.canonical.withoutElements.normalized
  refine ⟨horizonRetired_horizonRetired hr hx.canonical s t, ?_, hretired, hretired.normal,
    hprojected, hprojected.normal⟩
  rw [retiredAt_data hk, retiredAt_data (by rw [retiredUnder_kind, hk]), retiredAt_data hk]
  exact retiredUnder_retiredUnder hr hx.canonical s t

/-- One element and one remove, both issued in the first millisecond. -/
def firstMillisecond : Entry where
  did := 1
  data := [[7]]
  kind := .data
  crdt := ⟨none, [⟨⟨1, 0, 1, 7⟩, 0⟩], [⟨plainCodec.digest [8], ⟨⟨1, 0, 1, 7⟩, 1⟩⟩]⟩
  expiresAtMs := some 10

/-- Past the horizon of adds and within that of removes the element goes and the remove stays,
also of the join with itself. -/
theorem retirement_laws_data :
    (∃ z, firstMillisecond.join plainCodec firstMillisecond = .ok z ∧
      (firstMillisecond.horizonRetiredUnder dataRetention (maxTtlMs + 1)).join plainCodec
        (firstMillisecond.horizonRetiredUnder dataRetention (maxTtlMs + 1)) =
          .ok (z.horizonRetiredUnder dataRetention (maxTtlMs + 1))) ∧
    (firstMillisecond.horizonRetiredUnder dataRetention (maxTtlMs + 1)).data = [] ∧
    (firstMillisecond.horizonRetiredUnder dataRetention (maxTtlMs + 1)).crdt.tombstones.length = 1 :=
  ⟨(retirement_laws plainCodec dataRetention rfl).1 firstMillisecond firstMillisecond
    (by decide +kernel) (by decide +kernel) rfl ⟨rfl, rfl⟩ (maxTtlMs + 1), by decide +kernel,
    by decide +kernel⟩

end Entry

end Rings
