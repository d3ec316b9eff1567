import Mathlib.Algebra.BigOperators.Group.List.Lemmas
import Mathlib.Algebra.Order.BigOperators.Group.List
import Mathlib.Data.List.Nodup
import Mathlib.Data.Finset.Card
import Mathlib.Data.Finset.Dedup
import Mathlib.Algebra.Order.Group.Nat

/-!
Lists of pairs in the order of their writes, under a budget.

A write moves its key to the end of the list. A bounded write first forgets its own key, then drops
pairs from the front until the new one fits the budget. What a batch of writes leaves behind is a
suffix of the list as long as the batch itself fits.
-/

namespace Rings.WriteList

variable {K V : Type*} (weigh : V → ℕ) (budget : ℕ)

def weight : List (K × V) → ℕ
  | [] => 0
  | e :: l => weigh e.2 + weight l

/-- Drop pairs from the front until `incoming` more fits the budget. -/
def room (incoming : ℕ) : List (K × V) → List (K × V)
  | [] => []
  | e :: l => if budget < weight weigh (e :: l) + incoming then room incoming l else e :: l

/-- `left` is `l` without some pairs of its front, each of them dropped while `incoming` did not
fit. -/
def Drops (incoming : ℕ) (l left : List (K × V)) : Prop :=
  ∃ gone, l = gone ++ left ∧
    ∀ pre post, gone = pre ++ post → post ≠ [] → budget < weight weigh (post ++ left) + incoming

variable {weigh budget} {l left s : List (K × V)} {key k : K} {value v : V} {incoming : ℕ}

@[simp] lemma weight_nil : weight weigh ([] : List (K × V)) = 0 := rfl

@[simp] lemma weight_cons (e : K × V) (l : List (K × V)) :
    weight weigh (e :: l) = weigh e.2 + weight weigh l := rfl

@[simp] lemma weight_append (l l' : List (K × V)) :
    weight weigh (l ++ l') = weight weigh l + weight weigh l' := by
  induction l with
  | nil => simp
  | cons e l ih =>
    rw [List.cons_append, weight_cons, weight_cons, ih]
    omega

lemma weight_le_of_sublist (h : s.Sublist l) : weight weigh s ≤ weight weigh l := by
  induction h with
  | slnil => exact Nat.le_refl _
  | cons e _ ih =>
    rw [weight_cons]
    omega
  | cons_cons e _ ih =>
    rw [weight_cons, weight_cons]
    omega

lemma weight_perm (h : s.Perm l) : weight weigh s = weight weigh l := by
  induction h with
  | nil => rfl
  | cons e _ ih => rw [weight_cons, weight_cons, ih]
  | swap e e' l =>
    simp only [weight_cons]
    omega
  | trans _ _ ih ih' => rw [ih, ih']

lemma weight_one (l : List (K × V)) : weight (fun _ => 1) l = l.length := by
  induction l with
  | nil => rfl
  | cons e l ih =>
    rw [weight_cons, ih, List.length_cons]
    omega

lemma weight_zero (l : List (K × V)) : weight (fun _ => 0) l = 0 := by
  induction l with
  | nil => rfl
  | cons e l ih => rw [weight_cons, ih]

/-! ### Making room -/

lemma drops_refl (l : List (K × V)) : Drops weigh budget incoming l l := by
  refine ⟨[], rfl, fun pre post hgone hpost => ?_⟩
  exact absurd (List.append_eq_nil_iff.1 hgone.symm).2 hpost

lemma Drops.cons {e : K × V} (h : Drops weigh budget incoming l left)
    (hover : budget < weight weigh (e :: l) + incoming) :
    Drops weigh budget incoming (e :: l) left := by
  obtain ⟨gone, rfl, hgone⟩ := h
  refine ⟨e :: gone, rfl, fun pre post heq hpost => ?_⟩
  cases pre with
  | nil =>
    rw [List.nil_append] at heq
    rw [← heq]
    exact hover
  | cons e' pre =>
    rw [List.cons_append, List.cons.injEq] at heq
    exact hgone pre post heq.2 hpost

lemma drops_room (incoming : ℕ) (l : List (K × V)) :
    Drops weigh budget incoming l (room weigh budget incoming l) := by
  induction l with
  | nil => exact drops_refl []
  | cons e l ih =>
    rw [room]
    split
    · rename_i hover
      exact ih.cons hover
    · exact drops_refl _

lemma weight_room (h : incoming ≤ budget) (l : List (K × V)) :
    weight weigh (room weigh budget incoming l) + incoming ≤ budget := by
  induction l with
  | nil =>
    rw [room, weight_nil]
    omega
  | cons e l ih =>
    rw [room]
    split
    · exact ih
    · rename_i hfits
      exact not_lt.1 hfits

lemma room_of_fits (h : weight weigh l + incoming ≤ budget) : room weigh budget incoming l = l := by
  cases l with
  | nil => rfl
  | cons e l => rw [room, if_neg (not_lt.2 h)]

lemma Drops.suffix (h : Drops weigh budget incoming l left) : left <:+ l := by
  obtain ⟨gone, rfl, -⟩ := h
  exact List.suffix_append _ _

/-- No pair of a suffix that leaves room goes. -/
lemma Drops.keeps (h : Drops weigh budget incoming l left) (hs : s <:+ l)
    (hfits : weight weigh s + incoming ≤ budget) : s <:+ left := by
  obtain ⟨gone, rfl, hgone⟩ := h
  rcases List.suffix_or_suffix_of_suffix hs (List.suffix_append gone left) with hs' | hs'
  · exact hs'
  · obtain ⟨post, rfl⟩ := hs'
    obtain ⟨pre, hpre⟩ := hs
    rw [← List.append_assoc, List.append_cancel_right_eq] at hpre
    cases post with
    | nil => exact List.suffix_refl _
    | cons e post => exact absurd (hgone pre _ hpre.symm (List.cons_ne_nil _ _)) (not_lt.2 hfits)

/-- With one more pair to come, a budget of `n` pairs holds the last `n - 1` of them. -/
lemma length_room_one (n : ℕ) (l : List (K × V)) :
    (room (fun _ => 1) n 1 l).length = min (n - 1) l.length := by
  induction l with
  | nil =>
    rw [room]
    simp
  | cons e l ih =>
    rw [room, weight_one]
    split
    · rw [ih]
      rw [List.length_cons] at *
      omega
    · rw [List.length_cons] at *
      omega

/-! ### Bounded writes -/

variable [DecidableEq K]

def forget (l : List (K × V)) (key : K) : List (K × V) := l.filter (·.1 ≠ key)

/-- The list after a write of `key`. -/
def wrote (l : List (K × V)) (key : K) (value : V) : List (K × V) := forget l key ++ [(key, value)]

def put (weigh : V → ℕ) (budget : ℕ) (l : List (K × V)) (key : K) (value : V) : List (K × V) :=
  room weigh budget (weigh value) (forget l key) ++ [(key, value)]

lemma mem_forget {e : K × V} : e ∈ forget l key ↔ e ∈ l ∧ e.1 ≠ key := by
  rw [forget, List.mem_filter, decide_eq_true_iff]

lemma forget_suffix (h : s <:+ l) (key : K) : forget s key <:+ forget l key := h.filter _

lemma nodup_forget (h : (l.map Prod.fst).Nodup) (key : K) : ((forget l key).map Prod.fst).Nodup :=
  h.sublist (List.filter_sublist.map Prod.fst)

lemma nodup_wrote (h : (l.map Prod.fst).Nodup) (key : K) (value : V) :
    ((wrote l key value).map Prod.fst).Nodup := by
  rw [wrote, List.map_append, List.nodup_append]
  refine ⟨nodup_forget h key, List.nodup_singleton _, fun a ha b hb hab => ?_⟩
  obtain ⟨e, he, rfl⟩ := List.mem_map.1 ha
  rw [List.map_singleton, List.mem_singleton] at hb
  exact (mem_forget.1 he).2 (hab.trans hb)

lemma weight_put (h : weigh value ≤ budget) (l : List (K × V)) (key : K) :
    weight weigh (put weigh budget l key value) ≤ budget := by
  have hroom : weight weigh (room weigh budget (weigh value) (forget l key)) + weigh value ≤ budget :=
    weight_room h _
  rw [put, weight_append, weight_cons, weight_nil]
  exact hroom

/-! ### Batches -/

/-- What a batch writes: the last value of each of its keys, in the order of the last writes. -/
def lastWrites (batch : List (K × V)) : List (K × V) := batch.foldl (fun l e => wrote l e.1 e.2) []

def putBatch (weigh : V → ℕ) (budget : ℕ) (l batch : List (K × V)) : List (K × V) :=
  batch.foldl (fun l e => put weigh budget l e.1 e.2) l

lemma lastWrites_concat (batch : List (K × V)) (e : K × V) :
    lastWrites (batch ++ [e]) = wrote (lastWrites batch) e.1 e.2 := by
  rw [lastWrites, List.foldl_append]
  rfl

lemma putBatch_concat (l batch : List (K × V)) (e : K × V) :
    putBatch weigh budget l (batch ++ [e]) =
      put weigh budget (putBatch weigh budget l batch) e.1 e.2 := by
  rw [putBatch, List.foldl_append]
  rfl

lemma nodup_latest (batch : List (K × V)) : ((lastWrites batch).map Prod.fst).Nodup := by
  induction batch using List.reverseRecOn with
  | nil => exact List.nodup_nil
  | append_singleton batch e ih =>
    rw [lastWrites_concat]
    exact nodup_wrote ih e.1 e.2

/-- The last value of a key in a batch is the first from behind. -/
lemma mem_lastWrites {batch : List (K × V)} :
    (k, v) ∈ lastWrites batch ↔ batch.reverse.lookup k = some v := by
  induction batch using List.reverseRecOn with
  | nil => simp [lastWrites]
  | append_singleton batch e ih =>
    rw [lastWrites_concat, wrote, List.mem_append, mem_forget, ih, List.reverse_append,
      List.reverse_singleton, List.singleton_append, List.mem_singleton]
    by_cases hk : k = e.1
    · have hbeq : (k == e.1) = true := by simpa using hk
      rw [List.lookup_cons, hbeq]
      simp [hk, Prod.ext_iff, eq_comm]
    · have hbeq : (k == e.1) = false := by simpa using hk
      rw [List.lookup_cons, hbeq]
      simp [hk, Prod.ext_iff]

lemma mem_keys_latest {batch : List (K × V)} :
    k ∈ (lastWrites batch).map Prod.fst ↔ k ∈ batch.map Prod.fst := by
  induction batch using List.reverseRecOn with
  | nil => simp [lastWrites]
  | append_singleton batch e ih =>
    rw [lastWrites_concat, wrote, List.map_append, List.mem_append, List.map_append, List.mem_append,
      ← ih, List.map_singleton]
    by_cases hk : k = e.1
    · simp [hk]
    · have hmem : k ∈ (forget (lastWrites batch) e.1).map Prod.fst ↔
          k ∈ (lastWrites batch).map Prod.fst := by
        rw [List.mem_map, List.mem_map]
        constructor
        · rintro ⟨x, hx, hkx⟩
          exact ⟨x, (mem_forget.1 hx).1, hkx⟩
        · rintro ⟨x, hx, hkx⟩
          exact ⟨x, mem_forget.2 ⟨hx, hkx ▸ hk⟩, hkx⟩
      rw [hmem]

/-- The distinct keys of a batch. -/
lemma length_lastWrites (batch : List (K × V)) :
    (lastWrites batch).length = (batch.map Prod.fst).toFinset.card := by
  rw [← List.length_map Prod.fst, ← List.toFinset_card_of_nodup (nodup_latest batch)]
  congr 1
  ext k
  rw [List.mem_toFinset, List.mem_toFinset, mem_keys_latest]

/-- A batch that fits the budget at each of its writes stays whole. -/
lemma lastWrites_suffix {batch : List (K × V)} (l : List (K × V))
    (hfits : ∀ pre, pre <+: batch → weight weigh (lastWrites pre) ≤ budget) :
    lastWrites batch <:+ putBatch weigh budget l batch := by
  induction batch using List.reverseRecOn with
  | nil => exact List.nil_suffix
  | append_singleton batch e ih =>
    have hbatch := ih fun pre hpre => hfits pre (hpre.trans (List.prefix_append _ _))
    have hlast := hfits _ (List.prefix_refl _)
    rw [lastWrites_concat, wrote, weight_append, weight_cons, weight_nil] at hlast
    rw [lastWrites_concat, putBatch_concat, put, wrote]
    have hkept := (drops_room (weigh e.2) _).keeps (forget_suffix hbatch e.1) (by omega)
    obtain ⟨gone, hgone⟩ := hkept
    exact ⟨gone, by rw [← hgone, List.append_assoc]⟩

/-- A bounded write brings no pair of another key. -/
lemma mem_of_mem_put (h : (k, v) ∈ put weigh budget l key value) (hk : k ≠ key) : (k, v) ∈ l := by
  rw [put, List.mem_append, List.mem_singleton] at h
  rcases h with h | h
  · exact (mem_forget.1 ((drops_room _ _).suffix.subset h)).1
  · exact absurd (Prod.ext_iff.1 h).1 hk

lemma mem_of_mem_putBatch {batch : List (K × V)} (h : (k, v) ∈ putBatch weigh budget l batch)
    (hk : k ∉ batch.map Prod.fst) : (k, v) ∈ l := by
  induction batch generalizing l with
  | nil => exact h
  | cons e batch ih =>
    rw [List.map_cons, List.mem_cons, not_or] at hk
    exact mem_of_mem_put (ih h hk.2) hk.1

/-- A batch that is held whole fits the budget. -/
lemma weight_latest_le {batch held : List (K × V)} (hheld : weight weigh held ≤ budget)
    (hall : ∀ e ∈ lastWrites batch, e ∈ held) : weight weigh (lastWrites batch) ≤ budget := by
  have hsub : (lastWrites batch).Subperm held :=
    List.subperm_of_subset (nodup_latest batch).of_map hall
  obtain ⟨s, hperm, hs⟩ := hsub
  rw [← weight_perm hperm]
  exact (weight_le_of_sublist hs).trans hheld

lemma weight_putBatch {batch : List (K × V)} (hl : weight weigh l ≤ budget)
    (hbatch : ∀ e ∈ batch, weigh e.2 ≤ budget) :
    weight weigh (putBatch weigh budget l batch) ≤ budget := by
  induction batch using List.reverseRecOn with
  | nil => exact hl
  | append_singleton batch e ih =>
    rw [putBatch_concat]
    exact weight_put (hbatch e (by simp)) _ _

/-- A batch that grows with its writes is held whole exactly when it fits the budget. -/
lemma held_iff {batch : List (K × V)} (hl : weight weigh l ≤ budget)
    (hbatch : ∀ e ∈ batch, weigh e.2 ≤ budget)
    (hgrows : ∀ pre, pre <+: batch → weight weigh (lastWrites pre) ≤ weight weigh (lastWrites batch)) :
    (∀ e ∈ lastWrites batch, e ∈ putBatch weigh budget l batch) ↔
      weight weigh (lastWrites batch) ≤ budget := by
  constructor
  · exact weight_latest_le (weight_putBatch hl hbatch)
  · intro hfits e he
    exact (lastWrites_suffix l fun pre hpre => (hgrows pre hpre).trans hfits).subset he

/-! ### Writes of weight one -/

lemma length_forget_of_mem (hnodup : (l.map Prod.fst).Nodup) (hkey : key ∈ l.map Prod.fst) :
    (forget l key).length + 1 = l.length := by
  induction l with
  | nil => cases hkey
  | cons e l ih =>
    rw [List.map_cons, List.nodup_cons] at hnodup
    by_cases he : e.1 = key
    · have hrest : forget l key = l := by
        refine List.filter_eq_self.2 fun x hx => decide_eq_true fun hxkey => ?_
        exact hnodup.1 (List.mem_map.2 ⟨x, hx, hxkey.trans he.symm⟩)
      rw [forget, List.filter_cons_of_neg (by simp [he]), ← forget, hrest, List.length_cons]
    · rw [List.map_cons, List.mem_cons] at hkey
      have hmem := hkey.resolve_left fun heq => he heq.symm
      rw [forget, List.filter_cons_of_pos (by simp [he]), ← forget, List.length_cons,
        List.length_cons, ih hnodup.2 hmem]

lemma forget_of_notMem (hkey : key ∉ l.map Prod.fst) : forget l key = l :=
  List.filter_eq_self.2 fun x hx => decide_eq_true fun hxkey =>
    hkey (List.mem_map.2 ⟨x, hx, hxkey⟩)

/-- A bounded write to the last `n` pairs of a list gives the last `n` pairs of its write. -/
lemma put_one_suffix {n : ℕ} (hn : 0 < n) (hnodup : (l.map Prod.fst).Nodup) (hs : s <:+ l)
    (hlen : s.length = min n l.length) (key : K) (value : V) :
    put (fun _ => 1) n s key value <:+ wrote l key value ∧
      (put (fun _ => 1) n s key value).length = min n (wrote l key value).length := by
  constructor
  · obtain ⟨gone, hgone⟩ := ((@drops_room _ _ (fun _ : V => 1) n 1
      (forget s key)).suffix.trans (forget_suffix hs key))
    exact ⟨gone, by rw [put, wrote, ← hgone, List.append_assoc]⟩
  · have hsnodup : (s.map Prod.fst).Nodup := hnodup.sublist (hs.sublist.map Prod.fst)
    have hforgetS := @length_forget_of_mem _ _ _ key _ hsnodup
    have hforgetL := @length_forget_of_mem _ _ _ key _ hnodup
    rw [put, wrote, List.length_append, List.length_append, length_room_one, List.length_singleton]
    by_cases hkeyS : key ∈ s.map Prod.fst
    · have hsub := (hs.sublist.map Prod.fst).subset hkeyS
      have h1 := hforgetS hkeyS
      have h2 := hforgetL hsub
      omega
    · have h1 := forget_of_notMem hkeyS
      rw [h1]
      by_cases hkeyL : key ∈ l.map Prod.fst
      · have h2 := hforgetL hkeyL
        have hshort : s.length ≠ l.length := fun heq => hkeyS (hs.eq_of_length heq ▸ hkeyL)
        omega
      · rw [forget_of_notMem hkeyL]
        omega

/-- A bounded list keeps the last `n` pairs of the unbounded one through a batch. -/
lemma putBatch_one_suffix {n : ℕ} (hn : 0 < n) (hnodup : (l.map Prod.fst).Nodup) (hs : s <:+ l)
    (hlen : s.length = min n l.length) (batch : List (K × V)) :
    putBatch (fun _ => 1) n s batch <:+ batch.foldl (fun l e => wrote l e.1 e.2) l ∧
      (putBatch (fun _ => 1) n s batch).length =
        min n (batch.foldl (fun l e => wrote l e.1 e.2) l).length := by
  induction batch generalizing s l with
  | nil => exact ⟨hs, hlen⟩
  | cons e batch ih =>
    obtain ⟨hput, hputLen⟩ := put_one_suffix hn hnodup hs hlen e.1 e.2
    exact ih (nodup_wrote hnodup e.1 e.2) hput hputLen

end Rings.WriteList
