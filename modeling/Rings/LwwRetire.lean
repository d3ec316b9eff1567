import Rings.LwwSet

/-!
Element sets retired at two thresholds.

Retiring a set drops the adds below one threshold, the removes below a lower one, and a floor
that no remaining dot lies below. A dropped add is outranked by every add that stays, and a
dropped remove covers only adds that are dropped too. So the pairs a set shows after it is
retired are those it showed before, past the threshold, and retiring commutes with merging.
-/

namespace Rings

section Thresholds

variable {α : Type*} [LinearOrder α] {n : ℕ∞} {s : Finset α} {P : α → Prop} [DecidablePred P]

/-- Taking the newest elements commutes with cutting off a lower set. -/
lemma newest_filter_upper (hP : ∀ x y, x ≤ y → P x → P y) :
    newest n (s.filter P) = (newest n s).filter P := by
  have habove : ∀ x, P x → above (s.filter P) x = above s x := by
    intro x hx
    rw [above, above, Finset.filter_filter]
    congr 1
    ext y
    simp only [Finset.mem_filter]
    exact ⟨fun h => ⟨h.1, h.2.2⟩, fun h => ⟨h.1, hP x y h.2.le hx, h.2⟩⟩
  ext x
  rw [mem_newest, Finset.mem_filter, Finset.mem_filter, mem_newest]
  constructor
  · rintro ⟨⟨hs, hx⟩, hn⟩
    exact ⟨⟨hs, by rwa [habove x hx] at hn⟩, hx⟩
  · rintro ⟨⟨hs, hn⟩, hx⟩
    exact ⟨⟨hs, hx⟩, by rwa [habove x hx]⟩

end Thresholds

section Latest

variable {K D : Type*} [LinearOrder K] [LinearOrder D] {s : Finset (D ×ₗ K)} {A : D → Prop}
  [DecidablePred A]

lemma latest_filter_upper (hA : ∀ d d', d ≤ d' → A d → A d') :
    latest (s.filter fun q => A (dotOf q)) = (latest s).filter fun q => A (dotOf q) := by
  ext q
  rw [mem_latest, Finset.mem_filter, Finset.mem_filter, mem_latest]
  constructor
  · rintro ⟨⟨hs, hq⟩, hmax⟩
    refine ⟨⟨hs, fun p hp hk => ?_⟩, hq⟩
    by_contra hlt
    have hle : q ≤ p := (not_le.1 hlt).le
    exact hlt (hmax p (Finset.mem_filter.2 ⟨hp, hA _ _ (dotOf_le_dotOf hle) hq⟩) hk)
  · rintro ⟨⟨hs, hmax⟩, hq⟩
    exact ⟨⟨hs, hq⟩, fun p hp hk => hmax p (Finset.mem_filter.1 hp).1 hk⟩

end Latest

namespace LwwSet

variable {K E D : Type*} [LinearOrder K] [LinearOrder E] [LinearOrder D]

structure Thresholds (D : Type*) [LinearOrder D] where
  adds : D → Prop
  removes : D → Prop
  decAdds : DecidablePred adds
  decRemoves : DecidablePred removes
  upperAdds : ∀ d d', d ≤ d' → adds d → adds d'
  upperRemoves : ∀ d d', d ≤ d' → removes d → removes d'
  lower : ∀ d, adds d → removes d

attribute [instance] Thresholds.decAdds Thresholds.decRemoves

/-- `x'` is `x` retired: what is past its threshold stays, and the floor rises nowhere and
falls only where no dot stays. -/
structure Retired (T : Thresholds D) (x x' : LwwSet K E D) : Prop where
  adds : x'.adds = x.adds.filter fun q => T.adds (dotOf q)
  removes : x'.removes = x.removes.filter fun t => T.removes (dotOf t)
  floor : ∀ d, T.removes d → (d ∈ x'.floor ↔ d ∈ x.floor)

variable {T : Thresholds D} {digest : K → E} {x x' y y' : LwwSet K E D} {n m : ℕ∞}

lemma Retired.union (hx : Retired T x x') (hy : Retired T y y') :
    Retired T (x.union y) (x'.union y') where
  adds := by
    change x'.adds ∪ y'.adds = (x.adds ∪ y.adds).filter _
    rw [hx.adds, hy.adds, Finset.filter_union]
  removes := by
    change x'.removes ∪ y'.removes = (x.removes ∪ y.removes).filter _
    rw [hx.removes, hy.removes, Finset.filter_union]
  floor := fun d hd => and_congr (hx.floor d hd) (hy.floor d hd)

lemma Retired.covers_iff (h : Retired T x x') {q : D ×ₗ K} (hq : T.adds (dotOf q)) :
    Covers digest x'.removes q ↔ Covers digest x.removes q := by
  rw [h.removes]
  constructor
  · exact fun hc => hc.mono (Finset.filter_subset _ _)
  · rintro ⟨t, ht, hk, hle⟩
    exact ⟨t, Finset.mem_filter.2 ⟨ht, T.upperRemoves _ _ hle (T.lower _ hq)⟩, hk, hle⟩

/-- What a retired set shows is what it showed, past the threshold. -/
lemma Retired.visible (h : Retired T x x') :
    visible digest x' = (visible digest x).filter fun q => T.adds (dotOf q) := by
  ext q
  rw [mem_visible, h.adds, latest_filter_upper T.upperAdds, Finset.mem_filter, Finset.mem_filter,
    mem_visible]
  constructor
  · rintro ⟨⟨hq, hA⟩, hfloor, hcov⟩
    rw [h.floor _ (T.lower _ hA)] at hfloor
    rw [h.covers_iff hA] at hcov
    exact ⟨⟨hq, hfloor, hcov⟩, hA⟩
  · rintro ⟨⟨hq, hfloor, hcov⟩, hA⟩
    rw [← h.floor _ (T.lower _ hA)] at hfloor
    rw [← h.covers_iff hA] at hcov
    exact ⟨⟨hq, hA⟩, hfloor, hcov⟩

lemma Retired.standing (h : Retired T x x') :
    standing x' = (standing x).filter fun t => T.removes (dotOf t) := by
  ext t
  rw [mem_standing, h.removes, latest_filter_upper T.upperRemoves, Finset.mem_filter,
    Finset.mem_filter, mem_standing]
  constructor
  · rintro ⟨⟨ht, hR⟩, hfloor⟩
    exact ⟨⟨ht, (h.floor _ hR).1 hfloor⟩, hR⟩
  · rintro ⟨⟨ht, hfloor⟩, hR⟩
    exact ⟨⟨ht, hR⟩, (h.floor _ hR).2 hfloor⟩

/-- **Retiring commutes with merging.** -/
lemma Retired.merge (digest : K → E) (n m : ℕ∞) (hx : Retired T x x') (hy : Retired T y y') :
    Retired T (merge digest n m x y) (merge digest n m x' y') where
  adds := by
    rw [merge_adds, merge_adds, (hx.union hy).visible]
    exact newest_filter_upper fun p q hle hp => T.upperAdds _ _ (dotOf_le_dotOf hle) hp
  removes := by
    rw [merge_removes, merge_removes, (hx.union hy).standing]
    exact newest_filter_upper fun t u hle ht => T.upperRemoves _ _ (dotOf_le_dotOf hle) ht
  floor := (hx.union hy).floor

lemma Retired.normal (h : Retired T x x') (hx : Normal digest x) : Normal digest x' where
  adds := by rw [h.visible, hx.adds, h.adds]
  removes := by rw [h.standing, hx.removes, h.removes]

end LwwSet

end Rings
