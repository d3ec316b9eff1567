import Mathlib.Data.ENat.Basic
import Mathlib.Data.Finset.Max
import Mathlib.Data.Finset.Sort
import Mathlib.Data.List.Sort
import Mathlib.Tactic

/-!
The greatest `n` elements of a finite set.

An element is among the newest `n` of a set when fewer than `n` elements of the set are above
it; the bound is an extended natural number, and `⊤` keeps everything. Two sets have the same
newest elements as soon as each holds the newest of the other. On lists the selection is what
a sort and a skip compute.
-/

namespace Rings

variable {α : Type*} [LinearOrder α]

def above (s : Finset α) (x : α) : ℕ := (s.filter (x < ·)).card

/-- The elements of `s` with fewer than `n` elements of `s` above them. -/
noncomputable def newest (n : ℕ∞) (s : Finset α) : Finset α :=
  open Classical in s.filter fun x => (above s x : ℕ∞) < n

variable {n : ℕ∞} {s t : Finset α} {x y : α}

lemma mem_newest : x ∈ newest n s ↔ x ∈ s ∧ (above s x : ℕ∞) < n := by
  simp [newest]

lemma newest_subset : newest n s ⊆ s := fun _ hx => (mem_newest.1 hx).1

lemma above_mono (h : s ⊆ t) : above s x ≤ above t x :=
  Finset.card_le_card (Finset.filter_subset_filter _ h)

lemma above_antitone (h : x ≤ y) : above s y ≤ above s x :=
  Finset.card_le_card fun _ hz =>
    Finset.mem_filter.2 ⟨(Finset.mem_filter.1 hz).1, h.trans_lt (Finset.mem_filter.1 hz).2⟩

lemma above_le_card : above s x ≤ s.card := Finset.card_filter_le _ _

@[simp] lemma newest_top : newest ⊤ s = s := by
  ext x
  simp [mem_newest]

/-- Adding a new least element changes no count above another element. -/
lemma above_insert_of_lt (h : y < x) : above (insert y s) x = above s x := by
  rw [above, Finset.filter_insert, if_neg (not_lt.2 h.le), above]

lemma newest_insert_of_lt (h : ∀ x ∈ s, y < x) :
    newest n (insert y s) = if (s.card : ℕ∞) < n then insert y (newest n s) else newest n s := by
  have hy : above (insert y s) y = s.card := by
    rw [above, Finset.filter_insert, if_neg (lt_irrefl y), Finset.filter_true_of_mem h]
  have hs : ∀ x ∈ s, above (insert y s) x = above s x := fun x hx => above_insert_of_lt (h x hx)
  ext x
  rw [mem_newest, Finset.mem_insert]
  by_cases hx : x ∈ s
  · have hne : x ≠ y := (h x hx).ne'
    split <;> simp [hs x hx, mem_newest, hx, hne]
  · by_cases hxy : x = y
    · subst hxy
      split <;> simp_all [mem_newest]
    · split <;> simp [mem_newest, hx, hxy]

lemma card_newest : ((newest n s).card : ℕ∞) = min n s.card := by
  induction s using Finset.induction_on_min with
  | empty => simp [newest]
  | insert y s h ih =>
    have hy : y ∉ s := fun hy => lt_irrefl y (h y hy)
    have hy' : y ∉ newest n s := fun hn => hy (newest_subset hn)
    rw [newest_insert_of_lt h, Finset.card_insert_of_notMem hy]
    split
    · rename_i hlt
      rw [Finset.card_insert_of_notMem hy', Nat.cast_succ, ih, min_eq_right hlt.le, Nat.cast_succ,
        min_eq_right (Order.add_one_le_of_lt hlt)]
    · rename_i hge
      rw [ih, min_eq_left (not_lt.1 hge), min_eq_left]
      exact (not_lt.1 hge).trans (by exact_mod_cast Nat.le_succ _)

lemma newest_eq_self (h : (s.card : ℕ∞) ≤ n) : newest n s = s := by
  refine Finset.eq_of_subset_of_card_le newest_subset ?_
  have hcard : ((newest n s).card : ℕ∞) = s.card := by rw [card_newest, min_eq_right h]
  exact (Nat.cast_inj.1 hcard).ge

lemma above_lt_card (h : x ∈ s) : above s x < s.card := by
  refine Finset.card_lt_card (Finset.ssubset_iff_subset_ne.2 ⟨Finset.filter_subset _ _, ?_⟩)
  intro heq
  exact lt_irrefl x (Finset.mem_filter.1 (heq ▸ h)).2

/-- Taking the newest elements commutes with cutting off everything up to `x`. -/
lemma newest_filter_lt :
    (newest n s).filter (x < ·) = newest n (s.filter (x < ·)) := by
  ext y
  rw [Finset.mem_filter, mem_newest, mem_newest, Finset.mem_filter]
  have : x < y → above (s.filter (x < ·)) y = above s y := by
    intro hxy
    rw [above, above, Finset.filter_filter]
    congr 1
    ext z
    simp only [Finset.mem_filter]
    exact ⟨fun h => ⟨h.1, h.2.2⟩, fun h => ⟨h.1, hxy.trans h.2, h.2⟩⟩
  constructor
  · rintro ⟨⟨hs, hn⟩, hxy⟩
    exact ⟨⟨hs, hxy⟩, by rwa [this hxy]⟩
  · rintro ⟨⟨hs, hxy⟩, hn⟩
    exact ⟨⟨hs, by rwa [this hxy] at hn⟩, hxy⟩

/-- The newest elements count as many elements above `x` as the whole set, up to the bound. -/
lemma above_newest : (above (newest n s) x : ℕ∞) = min n (above s x) := by
  rw [above, newest_filter_lt, card_newest, above]

/-- Past the bound in `s`, an element is past the bound in every superset of the newest. -/
lemma le_above_of_newest_subset (h : newest n s ⊆ t) (hx : n ≤ above s x) : n ≤ above t x := by
  have h1 : (above (newest n s) x : ℕ∞) ≤ above t x := by exact_mod_cast above_mono h
  rwa [above_newest, min_eq_left hx] at h1

lemma newest_subset_newest (h : newest n s ⊆ t) (h' : newest n t ⊆ s) :
    newest n s ⊆ newest n t := by
  intro x hx
  refine mem_newest.2 ⟨h hx, ?_⟩
  by_contra hge
  exact (mem_newest.1 hx).2.not_ge (le_above_of_newest_subset h' (not_lt.1 hge))

/-- **Same newest.** Two sets that each hold the newest of the other have the same newest. -/
lemma newest_congr (h : newest n s ⊆ t) (h' : newest n t ⊆ s) : newest n s = newest n t :=
  (newest_subset_newest h h').antisymm (newest_subset_newest h' h)

/-- A subset within the bound that holds the newest is the newest. -/
lemma eq_newest_of_card_le {n : ℕ} (hts : t ⊆ s) (h : newest n s ⊆ t) (hc : t.card ≤ n) :
    t = newest n s := by
  refine Finset.Subset.antisymm (fun y hy => ?_) h
  by_contra hy'
  have habove : (n : ℕ∞) ≤ above s y := by
    by_contra hlt
    exact hy' (mem_newest.2 ⟨hts hy, not_le.1 hlt⟩)
  have hlt := above_lt_card hy
  have h1 := le_above_of_newest_subset h habove
  have : n ≤ above t y := by exact_mod_cast h1
  omega

/-! ### The newest elements of a list -/

/-- The last `l.length - skip` elements of the sorted list: a sort and a skip. -/
def sortSkip (l : List α) (skip : ℕ) : List α := (l.insertionSort (· ≤ ·)).drop skip

lemma sortSkip_sublist (l : List α) (skip : ℕ) :
    (sortSkip l skip).Sublist (l.insertionSort (· ≤ ·)) := List.drop_sublist _ _

lemma mem_of_mem_sortSkip {l : List α} {skip : ℕ} (h : x ∈ sortSkip l skip) : x ∈ l :=
  (List.mem_insertionSort _).1 ((sortSkip_sublist l skip).subset h)

lemma pairwise_sortSkip {l : List α} (hl : l.Nodup) (skip : ℕ) :
    (sortSkip l skip).Pairwise (· < ·) := by
  have hle : (l.insertionSort (· ≤ ·)).Pairwise (· ≤ ·) := List.pairwise_insertionSort _ _
  have hne : (l.insertionSort (· ≤ ·)).Nodup := (List.perm_insertionSort _ l).nodup_iff.2 hl
  exact ((hle.and hne).imp fun h => lt_of_le_of_ne h.1 h.2).sublist (sortSkip_sublist l skip)

/-- Skipping the excess over `n` of an ascending list keeps what has fewer than `n` above. -/
lemma mem_drop_iff {n : ℕ} {l : List α} (hl : l.Pairwise (· < ·)) :
    x ∈ l.drop (l.length - n) ↔ x ∈ l ∧ above l.toFinset x < n := by
  induction l with
  | nil => simp
  | cons y l ih =>
    rw [List.pairwise_cons] at hl
    have hmin : ∀ z ∈ l.toFinset, y < z := fun z hz => hl.1 z (List.mem_toFinset.1 hz)
    have hcard : l.toFinset.card = l.length :=
      List.toFinset_card_of_nodup (hl.2.imp fun h => h.ne)
    have hy : above (y :: l).toFinset y = l.length := by
      rw [List.toFinset_cons, above, Finset.filter_insert, if_neg (lt_irrefl y),
        Finset.filter_true_of_mem hmin, hcard]
    have hz : ∀ z ∈ l, above (y :: l).toFinset z = above l.toFinset z := fun z hz => by
      rw [List.toFinset_cons, above_insert_of_lt (hl.1 z hz)]
    rcases Nat.lt_or_ge l.length n with hn | hn
    · rw [show (y :: l).length - n = 0 by simp; omega, List.drop_zero, iff_self_and, List.mem_cons]
      rintro (rfl | hx)
      · omega
      · rw [hz x hx]
        exact (above_le_card.trans hcard.le).trans_lt hn
    · rw [show (y :: l).length - n = l.length - n + 1 by simp; omega, List.drop_succ_cons,
        ih hl.2, List.mem_cons]
      constructor
      · rintro ⟨hx, hlt⟩
        exact ⟨Or.inr hx, by rwa [hz x hx]⟩
      · rintro ⟨rfl | hx, hlt⟩
        · omega
        · exact ⟨hx, by rwa [hz x hx] at hlt⟩

lemma toFinset_insertionSort (l : List α) :
    (l.insertionSort (· ≤ ·)).toFinset = l.toFinset := by
  ext x
  simp

lemma toFinset_sortSkip {l : List α} (hl : l.Nodup) (n : ℕ) :
    (sortSkip l (l.length - n)).toFinset = newest n l.toFinset := by
  ext x
  have h := mem_drop_iff (x := x) (n := n) (pairwise_sortSkip hl 0)
  rw [sortSkip, List.drop_zero, List.length_insertionSort, toFinset_insertionSort] at h
  rw [List.mem_toFinset, sortSkip, h, mem_newest, List.mem_toFinset]
  simp

lemma toFinset_sortSkip_zero {l : List α} : (sortSkip l 0).toFinset = l.toFinset := by
  rw [sortSkip, List.drop_zero, toFinset_insertionSort]

lemma eq_of_toFinset_eq {l l' : List α} (hl : l.Pairwise (· < ·)) (hl' : l'.Pairwise (· < ·))
    (h : l.toFinset = l'.toFinset) : l = l' := by
  have hperm : l.Perm l' :=
    (List.perm_ext_iff_of_nodup (hl.imp fun h => h.ne) (hl'.imp fun h => h.ne)).2 fun x => by
      rw [← List.mem_toFinset, h, List.mem_toFinset]
  exact hperm.eq_of_pairwise' hl hl'

end Rings
