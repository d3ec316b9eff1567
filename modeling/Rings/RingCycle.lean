import Rings.ChordFixpoint
import Rings.Cyclic
import Mathlib.Data.List.GetD

/-!
The members of a ring as one cycle.

Going clockwise from a member meets every member once and returns. Seen from any member the
order is the same up to rotation, so one index function serves the views of all nodes.
-/

namespace Rings

variable {members : List Did} {n : Did}

def ringFrom (members : List Did) (n : Did) : List Did := n :: clockwise members n

/-- The member met after `i` steps clockwise from `n`. -/
def ringAt (members : List Did) (n : Did) (i : ℕ) : Did :=
  (ringFrom members n).getD (i % (ringFrom members n).length) n

/-! ### Rotation -/

/-- A strictly increasing list is known by its entries. -/
lemma clockwise_unique {l : List Did} (hl : l.Pairwise (dist n · < dist n ·))
    (hm : ∀ x, x ∈ l ↔ x ∈ members ∧ x ≠ n) : clockwise members n = l := by
  have hnd : ∀ {l : List Did}, l.Pairwise (dist n · < dist n ·) → l.Nodup := fun h =>
    h.imp fun hlt he => by rw [he] at hlt; exact lt_irrefl _ hlt
  have hperm : (clockwise members n).Perm l := by
    rw [List.perm_ext_iff_of_nodup (hnd clockwise_pairwise) (hnd hl)]
    intro x
    rw [mem_clockwise, hm]
  have hle : ∀ {l : List Did}, l.Pairwise (dist n · < dist n ·) →
      l.Pairwise (dist n · ≤ dist n ·) := fun h => h.imp le_of_lt
  exact hperm.eq_of_pairwise' (hle clockwise_pairwise) (hle hl)

/-- The next member sees the same order, with `n` last. -/
lemma clockwise_rotate (hn : n ∈ members) {x : Did} {rest : List Did}
    (h : clockwise members n = x :: rest) : clockwise members x = rest ++ [n] := by
  have hpw := @clockwise_pairwise members n
  rw [h] at hpw
  obtain ⟨hx, hrest⟩ := List.pairwise_cons.mp hpw
  have hmem : ∀ y, y ∈ x :: rest ↔ y ∈ members ∧ y ≠ n := fun y => by rw [← h, mem_clockwise]
  have hxn : x ≠ n := ((hmem x).mp List.mem_cons_self).2
  have hadd : ∀ y ∈ rest, dist n x + dist x y = dist n y := fun y hy =>
    dist_add_of_le (hx y hy).le
  refine clockwise_unique ?_ ?_
  · refine List.pairwise_append.mpr ⟨?_, List.pairwise_singleton _ _, ?_⟩
    · refine hrest.imp_of_mem fun {a b} ha hb hlt => ?_
      have := hadd a ha
      have := hadd b hb
      omega
    · intro y hy z hz
      rw [List.mem_singleton.mp hz]
      have h1 := hadd y hy
      have h2 := dist_add_comm hxn.symm
      have h3 := dist_lt n y
      omega
  · intro y
    rw [List.mem_append, List.mem_singleton]
    constructor
    · rintro (hy | rfl)
      · refine ⟨((hmem y).mp (List.mem_cons_of_mem _ hy)).1, fun he => ?_⟩
        have := hx y hy
        rw [he] at this
        omega
      · exact ⟨hn, hxn.symm⟩
    · rintro ⟨hy, hyx⟩
      by_cases hyn : y = n
      · exact Or.inr hyn
      · rcases List.mem_cons.mp ((hmem y).mpr ⟨hy, hyn⟩) with rfl | hr
        · exact absurd rfl hyx
        · exact Or.inl hr

/-! ### The index function -/

lemma ringFrom_length : (ringFrom members n).length = (clockwise members n).length + 1 := rfl

lemma ringFrom_nodup : (ringFrom members n).Nodup := by
  refine List.nodup_cons.mpr ⟨fun h => (mem_clockwise.mp h).2 rfl, ?_⟩
  refine clockwise_pairwise.imp fun {a b} (hlt : dist n a < dist n b) he => ?_
  rw [he] at hlt
  exact lt_irrefl _ hlt

lemma mem_ringFrom (hn : n ∈ members) {x : Did} : x ∈ ringFrom members n ↔ x ∈ members := by
  rw [ringFrom, List.mem_cons, mem_clockwise]
  constructor
  · rintro (rfl | h)
    · exact hn
    · exact h.1
  · intro h
    by_cases hx : x = n
    · exact Or.inl hx
    · exact Or.inr ⟨h, hx⟩

lemma ringAt_of_lt {i : ℕ} (h : i < (ringFrom members n).length) :
    ringAt members n i = (ringFrom members n)[i] := by
  rw [ringAt, Nat.mod_eq_of_lt h, List.getD_eq_getElem _ _ h]

lemma ringAt_cycle : Cycle (ringAt members n) (ringFrom members n).length where
  pos := Nat.succ_pos _
  period := fun i => by rw [ringAt, Nat.add_mod_right, ← ringAt]
  inj := by
    intro i j hij hj he
    have hpos : 0 < (ringFrom members n).length := Nat.succ_pos _
    have hi' := Nat.mod_lt i hpos
    have hj' := Nat.mod_lt j hpos
    rw [ringAt, ringAt, List.getD_eq_getElem _ _ hi', List.getD_eq_getElem _ _ hj'] at he
    have hmod := (List.Nodup.getElem_inj_iff ringFrom_nodup).mp he
    -- equal residues less than a period apart
    obtain ⟨t, rfl⟩ : ∃ t, j = i + t := ⟨j - i, by omega⟩
    have ht : t % (ringFrom members n).length = 0 := by
      have := (Nat.ModEq.add_left_cancel' i (show i + t ≡ i + 0 [MOD _] from hmod.symm))
      simpa [Nat.ModEq] using this
    rw [Nat.mod_eq_of_lt (by omega)] at ht
    omega

lemma ringAt_zero : ringAt members n 0 = n := rfl

lemma ringFrom_eq_map :
    ringFrom members n = (List.range' 0 (ringFrom members n).length).map (ringAt members n) := by
  refine List.ext_getElem (by simp) fun i h1 h2 => ?_
  rw [List.getElem_map, List.getElem_range', ← ringAt_of_lt h1]
  congr 1
  omega

lemma ringAt_mem (hn : n ∈ members) (i : ℕ) : ringAt members n i ∈ members := by
  have : ringAt members n i ∈ ringFrom members n := by
    rw [ringAt, List.getD_eq_getElem _ _ (Nat.mod_lt _ ringAt_cycle.pos)]
    exact List.getElem_mem _
  exact (mem_ringFrom hn).mp this

/-- **Rotation.** From the member after `i` steps, the ring goes on from index `i`. -/
lemma ringFrom_ringAt (hn : n ∈ members) (i : ℕ) :
    ringFrom members (ringAt members n i) =
      (List.range' i (ringFrom members n).length).map (ringAt members n) := by
  induction i with
  | zero => exact ringFrom_eq_map
  | succ i ih =>
    have hmem := ringAt_mem hn i
    have hper := @ringAt_cycle members n |>.period
    rw [ringFrom_length] at ih ⊢ hper
    rw [List.range'_succ, List.map_cons, ringFrom, List.cons.injEq] at ih
    rcases hlen : (clockwise members n).length with _ | k
    · -- a lone member is its own neighbour
      rw [hlen] at hper
      have h1 : ringAt members n (i + 1) = ringAt members n i := hper i
      rw [h1, ringFrom, ih.2, hlen]
      simp [h1]
    · have htail := ih.2
      rw [hlen, List.range'_succ, List.map_cons] at htail
      have hrot := clockwise_rotate hmem htail
      rw [hlen] at hper
      rw [ringFrom, hrot, List.range'_succ, List.map_cons, List.range'_1_concat, List.map_append,
        List.map_singleton, ← hper i]
      congr 4
      omega

lemma ringFrom_pairwise : (ringFrom members n).Pairwise (dist n · < dist n ·) := by
  refine List.pairwise_cons.mpr ⟨fun x hx => ?_, clockwise_pairwise⟩
  rw [dist_self]
  exact dist_pos.mpr (mem_clockwise.mp hx).2.symm

/-- Within one turn the distance from a member grows with the index. -/
lemma ringAt_dist_lt (hn : n ∈ members) {i x y : ℕ} (hix : i ≤ x) (hxy : x < y)
    (hy : y < i + (ringFrom members n).length) :
    dist (ringAt members n i) (ringAt members n x) <
      dist (ringAt members n i) (ringAt members n y) := by
  have hpw := @ringFrom_pairwise members (ringAt members n i)
  rw [ringFrom_ringAt hn, List.pairwise_map, List.pairwise_iff_getElem] at hpw
  have := hpw (x - i) (y - i) (by simp; omega) (by simp; omega) (by omega)
  simp only [List.getElem_range'] at this
  rwa [show i + 1 * (x - i) = x by omega, show i + 1 * (y - i) = y by omega] at this

/-! ### The neighbours of a member -/

lemma clockwise_eq_map : clockwise members n =
    (List.range' 1 (clockwise members n).length).map (ringAt members n) := by
  have h := @ringFrom_eq_map members n
  rw [ringFrom_length, List.range'_succ, List.map_cons, ringFrom, List.cons.injEq] at h
  exact h.2

lemma clockwise_ringAt_head? (hn : n ∈ members) (h : 2 ≤ (ringFrom members n).length) (i : ℕ) :
    (clockwise members (ringAt members n i)).head? = some (ringAt members n (i + 1)) := by
  have hr := ringFrom_ringAt hn i
  obtain ⟨k, hk⟩ : ∃ k, (ringFrom members n).length = k + 2 := ⟨_, (Nat.sub_add_cancel h).symm⟩
  rw [hk, List.range'_succ, List.map_cons, ringFrom, List.cons.injEq] at hr
  rw [hr.2, List.range'_succ, List.map_cons, List.head?_cons]

/-- The predecessor is the last member met. -/
lemma predecessor_eq_getLast? : predecessor members n = (clockwise members n).getLast? := by
  have hmem : ∀ x, x ∈ members.filter (· ≠ n) ↔ x ∈ clockwise members n := fun x => by
    rw [mem_clockwise]
    simp
  rcases hp : predecessor members n with _ | q
  · have hnil := List.argmax_eq_none.mp hp
    rcases hc : clockwise members n with _ | ⟨x, l⟩
    · rfl
    · have hx := (hmem x).mpr (by rw [hc]; exact List.mem_cons_self)
      rw [hnil] at hx
      cases hx
  · have hq := (hmem q).mp (List.argmax_mem hp)
    rcases hl : (clockwise members n).getLast? with _ | z
    · rw [List.getLast?_eq_none_iff] at hl
      rw [hl] at hq
      cases hq
    · -- both are farthest
      have hz : z ∈ clockwise members n := List.mem_of_getLast? hl
      have h1 : dist n z ≤ dist n q := List.le_of_mem_argmax ((hmem z).mpr hz) hp
      have h2 : dist n q ≤ dist n z := by
        obtain ⟨l, hl'⟩ := List.getLast?_eq_some_iff.mp hl
        have hpw := @clockwise_pairwise members n
        rw [hl', List.pairwise_append] at hpw
        rw [hl', List.mem_append, List.mem_singleton] at hq
        rcases hq with hq | rfl
        · exact (hpw.2.2 q hq z (List.mem_singleton.mpr rfl)).le
        · exact le_refl _
      rw [dist_inj.mp (le_antisymm h1 h2)]

end Rings
