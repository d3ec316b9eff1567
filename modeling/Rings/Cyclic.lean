import Mathlib.Data.List.Basic
import Mathlib.Data.List.Range
import Mathlib.Data.List.Infix
import Mathlib.Data.List.Chain
import Mathlib.Tactic

/-!
Walks on a cycle.

A cycle is a function `c` on indices with a period, one to one within a period. The marked
elements met by an index running from `a` to `b` form `span c p a b`; a walk that skips only
unmarked elements meets the same ones. Collecting distinct elements along a walk therefore
gives the first marked elements of one turn, in order, however far the walk goes.
-/

namespace Rings

variable {α : Type*} (c : ℕ → α) (p : α → Bool)

/-- The marked elements from index `a` up to, and without, index `b`. -/
def span (a b : ℕ) : List α := ((List.range' a (b - a)).map c).filter p

variable {c p} {a b d : ℕ}

lemma span_of_le (h : b ≤ a) : span c p a b = [] := by
  simp [span, Nat.sub_eq_zero_of_le h]

lemma span_append (h : a ≤ b) (h' : b ≤ d) : span c p a b ++ span c p b d = span c p a d := by
  unfold span
  rw [← List.filter_append, ← List.map_append]
  congr 2
  rw [show d - a = (b - a) + (d - b) by omega, ← List.range'_append_1,
    show a + (b - a) = b by omega]

lemma mem_span {x : α} : x ∈ span c p a b ↔ ∃ i, a ≤ i ∧ i < b ∧ c i = x ∧ p x = true := by
  simp only [span, List.mem_filter, List.mem_map, List.mem_range'_1]
  constructor
  · rintro ⟨⟨i, ⟨h1, h2⟩, rfl⟩, hp⟩
    exact ⟨i, h1, by omega, rfl, hp⟩
  · rintro ⟨i, h1, h2, rfl, hp⟩
    exact ⟨⟨i, ⟨h1, by omega⟩, rfl⟩, hp⟩

lemma span_eq_nil (h : ∀ i, a ≤ i → i < b → p (c i) = false) : span c p a b = [] := by
  rw [List.eq_nil_iff_forall_not_mem]
  intro x hx
  obtain ⟨i, h1, h2, rfl, hp⟩ := mem_span.mp hx
  rw [h i h1 h2] at hp
  cases hp

lemma span_prefix_of_le (h : b ≤ d) : span c p a b <+: span c p a d := by
  rcases Nat.le_total a b with hab | hab
  · exact ⟨span c p b d, span_append hab h⟩
  · rw [span_of_le hab]
    exact List.nil_prefix

structure Cycle (c : ℕ → α) (N : ℕ) : Prop where
  pos : 0 < N
  period : ∀ i, c (i + N) = c i
  inj : ∀ i j, i ≤ j → j < i + N → c i = c j → i = j

variable {N : ℕ}

lemma Cycle.span_shift (h : Cycle c N) : span c p (a + N) (b + N) = span c p a b := by
  unfold span
  rw [show b + N - (a + N) = b - a by omega]
  congr 1
  refine List.ext_getElem (by simp) fun i h1 h2 => ?_
  simp only [List.getElem_map, List.getElem_range']
  rw [show a + N + 1 * i = a + 1 * i + N by omega, h.period]

lemma Cycle.span_nodup (h : Cycle c N) (hb : b ≤ a + N) : (span c p a b).Nodup := by
  refine List.Nodup.filter _ ?_
  refine List.Nodup.map_on ?_ List.nodup_range'
  intro i hi j hj hij
  rw [List.mem_range'_1] at hi hj
  rcases Nat.le_total i j with hle | hle
  · exact h.inj i j hle (by omega) hij
  · exact (h.inj j i hle (by omega) hij.symm).symm

lemma Cycle.span_subset (h : Cycle c N) (m : ℕ) : span c p a b ⊆ span c p m (m + N) := by
  intro x hx
  obtain ⟨i, -, -, hi, hp⟩ := mem_span.mp hx
  -- the index of the same element within the turn from `m`
  have hback : ∀ t i, c (i + t * N) = c i := by
    intro t i
    induction t with
    | zero => simp
    | succ t ih => rw [Nat.succ_mul, ← Nat.add_assoc, h.period, ih]
  have hN := h.pos
  have hge : m ≤ m * N := Nat.le_mul_of_pos_right m hN
  obtain ⟨q, hq⟩ : ∃ q, i + m * N = m + q := ⟨i + m * N - m, by omega⟩
  have hlt := Nat.mod_lt q hN
  refine mem_span.mpr ⟨m + q % N, by omega, by omega, ?_, hp⟩
  have hqi : m + q % N + q / N * N = i + m * N := by
    have hdiv := Nat.mod_add_div q N
    rw [Nat.mul_comm (q / N) N]
    omega
  rw [← hback (q / N), hqi, hback, hi]

/-! ### Walks -/

/-- A step from index `i` to index `j` passes no marked element but the one it leaves, and
leaves a marked one only to its neighbour. -/
def Skips (c : ℕ → α) (p : α → Bool) (i j : ℕ) : Prop :=
  i < j ∧ (∀ x, i < x → x < j → p (c x) = false) ∧ (j = i + 1 ∨ p (c i) = false)

lemma walk_head_le {l : List ℕ} (h : l.IsChain (Skips c p)) (ha : l.head? = some a)
    (hb : b ∈ l) : a ≤ b := by
  cases l with
  | nil => cases ha
  | cons i l =>
    obtain rfl := Option.some.inj ha
    have hlt : (i :: l).IsChain (· < ·) := h.imp fun _ _ h => h.1
    rcases List.mem_cons.mp hb with rfl | hb
    · exact le_refl _
    · exact (List.rel_of_pairwise_cons (List.isChain_iff_pairwise.mp hlt) hb).le

/-- The marked elements of a walk are those of its span. -/
lemma walk_filter {l : List ℕ} (h : l.IsChain (Skips c p)) (ha : l.head? = some a)
    (hb : l.getLast? = some b) : (l.map c).filter p = span c p a (b + 1) := by
  induction l generalizing a with
  | nil => cases ha
  | cons i l ih =>
    obtain rfl := Option.some.inj ha
    have hone : span c p i (i + 1) = [c i].filter p := by simp [span]
    cases l with
    | nil =>
      obtain rfl : i = b := by simpa using hb
      rw [hone, List.map_singleton]
    | cons j l =>
      obtain ⟨hij, htail⟩ := List.isChain_cons_cons.mp h
      have hb' : (j :: l).getLast? = some b := by rwa [List.getLast?_cons_cons] at hb
      have hjb := walk_head_le htail rfl (List.mem_of_getLast? hb')
      have hi := hij.1
      rw [List.map_cons, ← List.singleton_append, List.filter_append, ih htail rfl hb', ← hone,
        ← span_append (show i ≤ i + 1 by omega) (show i + 1 ≤ b + 1 by omega),
        ← span_append (show i + 1 ≤ j by omega) (show j ≤ b + 1 by omega),
        span_eq_nil (fun x h1 h2 => hij.2.1 x (by omega) h2), List.nil_append]

/-- The marked elements of a walk before the index `b` it goes on to. -/
lemma walk_filter_take {l : List ℕ} (h : (l ++ [b]).IsChain (Skips c p))
    (ha : (l ++ [b]).head? = some a) : (l.map c).filter p = span c p a b := by
  have hle := walk_head_le h ha (List.mem_append_right l (List.mem_singleton.mpr rfl))
  have hall := walk_filter h ha (List.getLast?_concat (l := l) (a := b))
  rw [List.map_append, List.filter_append, ← span_append hle (Nat.le_succ b)] at hall
  have hone : span c p b (b + 1) = ([b].map c).filter p := by simp [span]
  rw [← hone] at hall
  exact List.append_cancel_right hall

/-! ### Collecting along a walk -/

def collectDistinct [DecidableEq α] (r : ℕ) : List α → List α → List α
  | acc, [] => acc
  | acc, x :: xs =>
    if acc.length = r then acc
    else collectDistinct r (if x ∈ acc then acc else acc ++ [x]) xs

section Collect

variable [DecidableEq α]

lemma collectDistinct_full (acc xs : List α) : collectDistinct acc.length acc xs = acc := by
  cases xs <;> simp [collectDistinct]

lemma collectDistinct_known {r : ℕ} {acc xs ys : List α} (h : xs ⊆ acc) :
    collectDistinct r acc (xs ++ ys) = collectDistinct r acc ys := by
  induction xs with
  | nil => rfl
  | cons x xs ih =>
    rw [List.cons_append, collectDistinct, if_pos (h List.mem_cons_self)]
    split
    · rename_i hr
      rw [← hr, collectDistinct_full]
    · exact ih fun y hy => h (List.mem_cons_of_mem _ hy)

lemma collectDistinct_fresh {r : ℕ} {acc xs ys : List α} (hr : acc.length ≤ r)
    (h : (acc ++ xs).Nodup) :
    collectDistinct r acc (xs ++ ys) = if (acc ++ xs).length ≤ r then
      collectDistinct r (acc ++ xs) ys else (acc ++ xs).take r := by
  induction xs generalizing acc with
  | nil => simp [hr]
  | cons x xs ih =>
    have hx : x ∉ acc := fun hm =>
      (List.nodup_append.mp h).2.2 x hm x List.mem_cons_self rfl
    have hassoc : acc ++ x :: xs = (acc ++ [x]) ++ xs := by simp
    rw [List.cons_append, collectDistinct]
    split
    · rename_i hfull
      rw [if_neg (by simp; omega), ← hfull, List.take_left' rfl]
    · rw [ih (by simp; omega) (by rwa [← hassoc]), ← hassoc]

/-- Fresh entries, then known ones, then fresh ones. -/
lemma collectDistinct_turn {r : ℕ} {xs ys zs : List α} (h : (xs ++ zs).Nodup) (hy : ys ⊆ xs) :
    collectDistinct r [] (xs ++ (ys ++ zs)) = (xs ++ zs).take r := by
  rw [collectDistinct_fresh (Nat.zero_le r) (by simpa using (List.nodup_append.mp h).1)]
  simp only [List.nil_append]
  split
  · rename_i hr
    rw [collectDistinct_known hy, ← List.append_nil zs, collectDistinct_fresh hr (by simpa using h)]
    split
    · rw [collectDistinct, List.append_nil, List.take_of_length_le (by assumption)]
    · rw [List.append_nil]
  · rename_i hr
    rw [List.take_append_of_le_length (by omega)]

lemma collectDistinct_nodup {r : ℕ} {xs : List α} (h : xs.Nodup) :
    collectDistinct r [] xs = xs.take r := by
  have hturn := @collectDistinct_turn _ _ r xs [] [] (by simpa using h) (List.nil_subset _)
  simpa using hturn

lemma collectDistinct_again {r : ℕ} {xs ys : List α} (h : xs.Nodup) (hy : ys ⊆ xs) :
    collectDistinct r [] (xs ++ ys) = xs.take r := by
  have hturn := @collectDistinct_turn _ _ r xs ys [] (by simpa using h) hy
  simpa using hturn

variable (h : Cycle c N) {m e : ℕ}

include h

/-- A walk on from `m` collects the first marked elements of the turn from `m`. -/
lemma Cycle.collect_open (r : ℕ) :
    collectDistinct r [] (span c p m e) <+: (span c p m (m + N)).take r := by
  rcases Nat.le_total e (m + N) with he | he
  · rw [collectDistinct_nodup (h.span_nodup he)]
    exact (span_prefix_of_le he).take r
  · -- past the turn, every element is a known one
    rw [← span_append (by omega) he,
      collectDistinct_again (h.span_nodup le_rfl) (h.span_subset m)]

/-- A walk from `m` to `e` that goes on from `a` round to `m` again collects the whole turn, if
it leaves no marked element out. -/
lemma Cycle.collect_wrapped (r : ℕ) (hme : m ≤ e) (hma : m ≤ a + N) (ham : a ≤ m)
    (hgap : span c p e (a + N) = []) :
    collectDistinct r [] (span c p m e ++ span c p a m) = (span c p m (m + N)).take r := by
  rw [← h.span_shift (a := a) (b := m)]
  rcases Nat.le_total e (a + N) with he | he
  · have hjoin : span c p m e ++ span c p (a + N) (m + N) = span c p m (m + N) := by
      rw [← span_append hma (show a + N ≤ m + N by omega), ← span_append hme he, hgap,
        List.append_nil]
    rw [hjoin, collectDistinct_nodup (h.span_nodup le_rfl)]
  · rcases Nat.le_total e (m + N) with he' | he'
    · rw [← span_append he he', ← span_append hme he']
      refine collectDistinct_turn ?_ ?_
      · rw [span_append hme he']
        exact h.span_nodup le_rfl
      · rw [← span_append hma he]
        exact List.subset_append_right _ _
    · -- the walk has already gone round
      have hsub : span c p (m + N) e ++ span c p (a + N) (m + N) ⊆ span c p m (m + N) :=
        List.append_subset.mpr ⟨h.span_subset m, h.span_subset m⟩
      rw [← span_append (by omega) he', List.append_assoc,
        collectDistinct_again (h.span_nodup le_rfl) hsub]

end Collect

end Rings
