import Mathlib.Data.List.Nodup
import Mathlib.Order.Lattice
import Mathlib.Tactic

/-!
Finite maps joined by the pointwise maximum.

A map is a list of pairs in ascending order of their keys, so it is determined by its lookup
`get?`. An insertion keeps the greater of the two values of a key, and joining one map into
another inserts its pairs one by one; both are read off as a maximum of lookups, with an
absent key below every value.
-/

namespace Rings

/-! ### The maximum of optional values, with `none` at the bottom -/

section OptionMax

variable {α : Type*} [LinearOrder α] {o p q : Option α} {a b : α}

lemma omax_comm (o p : Option α) : max o p = max p o := by
  cases o <;> cases p <;> simp [max_comm]

lemma omax_assoc (o p q : Option α) : max (max o p) q = max o (max p q) := by
  cases o <;> cases p <;> cases q <;> simp [max_assoc]

lemma omax_self (o : Option α) : max o o = o := by
  cases o <;> simp

lemma omax_eq_some : max o p = some a ↔
    (o = some a ∨ p = some a) ∧ (∀ b, o = some b → b ≤ a) ∧ ∀ b, p = some b → b ≤ a := by
  rcases o with _ | x <;> rcases p with _ | y
  · simp
  · simp only [Option.max_none_left, reduceCtorEq, false_or, Option.some.injEq, false_implies,
      implies_true, true_and]
    exact ⟨fun h => ⟨h, fun b hb => by rw [← hb, h]⟩, fun h => h.1⟩
  · simp only [Option.max_none_right, reduceCtorEq, or_false, Option.some.injEq, false_implies,
      implies_true, and_true]
    exact ⟨fun h => ⟨h, fun b hb => by rw [← hb, h]⟩, fun h => h.1⟩
  · simp only [Option.max_some_some, Option.some.injEq, forall_eq']
    constructor
    · rintro rfl
      exact ⟨(max_choice x y).imp Eq.symm Eq.symm, le_max_left x y, le_max_right x y⟩
    · rintro ⟨rfl | rfl, h1, h2⟩
      · exact max_eq_left h2
      · exact max_eq_right h1

lemma omax_isSome : (max o p).isSome = (o.isSome || p.isSome) := by
  cases o <;> cases p <;> simp

lemma exists_omax_left (h : o = some a) : ∃ b, a ≤ b ∧ max o p = some b := by
  subst h
  cases p with
  | none => exact ⟨a, le_rfl, rfl⟩
  | some b => exact ⟨max a b, le_max_left a b, rfl⟩

lemma exists_omax_right (h : p = some a) : ∃ b, a ≤ b ∧ max o p = some b := by
  rw [omax_comm]
  exact exists_omax_left h

end OptionMax

/-! ### The maps -/

lemma lookup_cons_ite {K V : Type*} [DecidableEq K] (k : K) (kv : K × V) (l : List (K × V)) :
    (kv :: l).lookup k = if k = kv.1 then some kv.2 else l.lookup k := by
  by_cases hk : k = kv.1
  · subst hk
    rw [List.lookup_cons_self, if_pos rfl]
  · have hne : (k == kv.1) = false := by simpa using hk
    rw [List.lookup_cons, hne, if_neg hk]

lemma lookup_eq_none_of_notMem {K V : Type*} [DecidableEq K] {l : List (K × V)} {k : K}
    (h : k ∉ l.map Prod.fst) : l.lookup k = none := by
  rw [List.lookup_eq_none_iff]
  intro p hp
  simpa using fun hk => h (List.mem_map.2 ⟨p, hp, hk.symm⟩)

lemma lookup_eq_some_iff {K V : Type*} [DecidableEq K] {l : List (K × V)}
    (hl : (l.map Prod.fst).Nodup) {k : K} {v : V} : l.lookup k = some v ↔ (k, v) ∈ l := by
  induction l with
  | nil => simp
  | cons kv l ih =>
    rw [List.map_cons, List.nodup_cons] at hl
    by_cases hk : k = kv.1
    · subst hk
      have hout : ∀ w, (kv.1, w) ∉ l := fun w hw => hl.1 (List.mem_map.2 ⟨_, hw, rfl⟩)
      rw [List.lookup_cons_self, List.mem_cons, Option.some.injEq]
      constructor
      · rintro rfl
        exact Or.inl rfl
      · rintro (h | h)
        · rw [← h]
        · exact absurd h (hout v)
    · have hne : (k == kv.1) = false := by simpa using hk
      rw [List.lookup_cons, hne, List.mem_cons, ih hl.2]
      constructor
      · exact Or.inr
      · rintro (rfl | h)
        · exact absurd rfl hk
        · exact h

@[ext]
structure BTreeMap (K V : Type*) [LinearOrder K] where
  entries : List (K × V)
  ascending : entries.Pairwise fun p q => p.1 < q.1

namespace BTreeMap

variable {K V : Type*} [LinearOrder K]

lemma nodup (m : BTreeMap K V) : (m.entries.map Prod.fst).Nodup :=
  List.pairwise_map.2 (m.ascending.imp fun h => h.ne)

def empty : BTreeMap K V := ⟨[], List.Pairwise.nil⟩

def get? (m : BTreeMap K V) (k : K) : Option V := m.entries.lookup k

/-- `retain`: the pairs `p` keeps. -/
def retain (m : BTreeMap K V) (p : K → V → Bool) : BTreeMap K V where
  entries := m.entries.filter fun kv => p kv.1 kv.2
  ascending := m.ascending.sublist List.filter_sublist

def remove (m : BTreeMap K V) (k : K) : BTreeMap K V := m.retain fun j _ => j ≠ k

/-- The pairs of `l` with the value of `k` set to `v`, in the order of the keys. -/
def insertInto (k : K) (v : V) : List (K × V) → List (K × V)
  | [] => [(k, v)]
  | kv :: l =>
    if k < kv.1 then (k, v) :: kv :: l
    else if k = kv.1 then (k, v) :: l
    else kv :: insertInto k v l

lemma mem_insertInto {k : K} {v : V} {l : List (K × V)}
    (hl : l.Pairwise fun p q => p.1 < q.1) {p : K × V} :
    p ∈ insertInto k v l ↔ p = (k, v) ∨ p.1 ≠ k ∧ p ∈ l := by
  induction l with
  | nil => simp [insertInto]
  | cons kv l ih =>
    rw [List.pairwise_cons] at hl
    rw [insertInto]
    split
    · rename_i hlt
      have : ∀ q ∈ kv :: l, q.1 ≠ k := by
        intro q hq
        rcases List.mem_cons.1 hq with rfl | hq
        · exact hlt.ne'
        · exact (hlt.trans (hl.1 q hq)).ne'
      rw [List.mem_cons]
      exact or_congr_right ⟨fun h => ⟨this p h, h⟩, And.right⟩
    · split
      · rename_i heq
        subst heq
        rw [List.mem_cons, List.mem_cons]
        refine or_congr_right ⟨fun h => ⟨(hl.1 p h).ne', Or.inr h⟩, ?_⟩
        rintro ⟨hne, rfl | h⟩
        · exact absurd rfl hne
        · exact h
      · rename_i hne
        rw [List.mem_cons, List.mem_cons, ih hl.2]
        constructor
        · rintro (rfl | h | ⟨hk, h⟩)
          · exact Or.inr ⟨Ne.symm hne, Or.inl rfl⟩
          · exact Or.inl h
          · exact Or.inr ⟨hk, Or.inr h⟩
        · rintro (h | ⟨hk, h | h⟩)
          · exact Or.inr (Or.inl h)
          · exact Or.inl h
          · exact Or.inr (Or.inr ⟨hk, h⟩)

lemma pairwise_insertInto {k : K} {v : V} {l : List (K × V)}
    (hl : l.Pairwise fun p q => p.1 < q.1) :
    (insertInto k v l).Pairwise fun p q => p.1 < q.1 := by
  induction l with
  | nil => simp [insertInto]
  | cons kv l ih =>
    have hl' := hl
    rw [List.pairwise_cons] at hl
    rw [insertInto]
    split
    · rename_i hlt
      refine List.pairwise_cons.2 ⟨fun q hq => ?_, hl'⟩
      rcases List.mem_cons.1 hq with rfl | hq
      · exact hlt
      · exact hlt.trans (hl.1 q hq)
    · split
      · rename_i heq
        subst heq
        exact List.pairwise_cons.2 ⟨fun q hq => hl.1 q hq, hl.2⟩
      · rename_i hnlt hne
        refine List.pairwise_cons.2 ⟨fun q hq => ?_, ih hl.2⟩
        rcases (mem_insertInto hl.2).1 hq with rfl | ⟨-, hq⟩
        · exact lt_of_le_of_ne (not_lt.1 hnlt) (Ne.symm hne)
        · exact hl.1 q hq

def insert (m : BTreeMap K V) (k : K) (v : V) : BTreeMap K V :=
  ⟨insertInto k v m.entries, pairwise_insertInto m.ascending⟩

lemma mem_entries (m : BTreeMap K V) {k : K} {v : V} :
    (k, v) ∈ m.entries ↔ m.get? k = some v :=
  (lookup_eq_some_iff m.nodup).symm

@[simp] lemma get?_empty (k : K) : (empty : BTreeMap K V).get? k = none := rfl

lemma get?_eq_of_forall {m : BTreeMap K V} {k : K} {o : Option V}
    (h : ∀ v, (k, v) ∈ m.entries ↔ o = some v) : m.get? k = o :=
  Option.ext fun v => by rw [← mem_entries, h]

/-- A map is determined by its lookups. -/
lemma ext_get? {m n : BTreeMap K V} (h : ∀ k, m.get? k = n.get? k) : m = n := by
  have hmem : ∀ p : K × V, p ∈ m.entries ↔ p ∈ n.entries := fun p => by
    rw [m.mem_entries, h, ← n.mem_entries]
  have hnodup : ∀ m : BTreeMap K V, m.entries.Nodup := fun m => m.nodup.of_map
  have hperm := (List.perm_ext_iff_of_nodup (hnodup m) (hnodup n)).2 hmem
  refine BTreeMap.ext (hperm.eq_of_pairwise (fun p q _ _ hpq hqp => ?_) m.ascending n.ascending)
  exact absurd (hpq.trans hqp) (lt_irrefl _)

lemma get?_retain (m : BTreeMap K V) (p : K → V → Bool) (k : K) :
    (m.retain p).get? k = (m.get? k).filter (p k) := by
  refine get?_eq_of_forall fun v => ?_
  simp [retain, mem_entries, Option.filter_eq_some_iff]

lemma get?_remove (m : BTreeMap K V) (j k : K) :
    (m.remove j).get? k = if k = j then none else m.get? k := by
  rw [remove, get?_retain]
  by_cases h : k = j <;> cases m.get? k <;> simp [h]

lemma get?_insert (m : BTreeMap K V) (j k : K) (v : V) :
    (m.insert j v).get? k = if k = j then some v else m.get? k := by
  refine get?_eq_of_forall fun w => ?_
  rw [insert, mem_insertInto m.ascending, mem_entries]
  by_cases h : k = j
  · simp [h, eq_comm]
  · simp [h]

lemma insert_insert (m : BTreeMap K V) (k : K) (v w : V) :
    (m.insert k v).insert k w = m.insert k w := by
  refine ext_get? fun j => ?_
  rw [get?_insert, get?_insert, get?_insert]
  split <;> rfl

def mapValues {W : Type*} (m : BTreeMap K V) (f : V → W) : BTreeMap K W where
  entries := m.entries.map fun kv => (kv.1, f kv.2)
  ascending := List.pairwise_map.2 m.ascending

lemma get?_mapValues {W : Type*} (m : BTreeMap K V) (f : V → W) (k : K) :
    (m.mapValues f).get? k = (m.get? k).map f := by
  refine get?_eq_of_forall fun w => ?_
  simp [mapValues, mem_entries]

/-- The map with the value of `k` put at `o`, or taken out. -/
def replace (m : BTreeMap K V) (k : K) : Option V → BTreeMap K V
  | some v => m.insert k v
  | none => m.remove k

@[simp] lemma get?_replace (m : BTreeMap K V) (j k : K) (o : Option V) :
    (m.replace j o).get? k = if k = j then o else m.get? k := by
  cases o with
  | none => exact get?_remove m j k
  | some v => exact get?_insert m j k v

@[simp] lemma replace_get? (m : BTreeMap K V) (k : K) : m.replace k (m.get? k) = m := by
  refine ext_get? fun j => ?_
  rw [get?_replace]
  split
  · rename_i h
    rw [h]
  · rfl

/-- Putting a value back undoes any change of it. -/
@[simp] lemma replace_replace_get? (m : BTreeMap K V) (k : K) (o : Option V) :
    (m.replace k o).replace k (m.get? k) = m := by
  refine ext_get? fun j => ?_
  rw [get?_replace, get?_replace]
  split
  · rename_i h
    rw [h]
  · rfl

def extend (m n : BTreeMap K V) : BTreeMap K V := n.entries.foldl (fun m kv => m.insert kv.1 kv.2) m

/-- Inserting pairs with distinct keys puts their values over those of the map. -/
lemma get?_foldl_insert {l : List (K × V)} (hl : (l.map Prod.fst).Nodup) (m : BTreeMap K V) (k : K) :
    (l.foldl (fun m kv => m.insert kv.1 kv.2) m).get? k = (l.lookup k).or (m.get? k) := by
  induction l generalizing m with
  | nil => rfl
  | cons kv l ih =>
    rw [List.map_cons, List.nodup_cons] at hl
    rw [List.foldl_cons, ih hl.2, get?_insert, lookup_cons_ite]
    split
    · rename_i hk
      subst hk
      rw [lookup_eq_none_of_notMem hl.1]
      rfl
    · rfl

lemma get?_extend (m n : BTreeMap K V) (k : K) :
    (m.extend n).get? k = (n.get? k).or (m.get? k) :=
  get?_foldl_insert n.nodup m k

/-- The map without several keys. -/
lemma entries_removeAll (m : BTreeMap K V) (keys : List K) :
    (keys.foldl BTreeMap.remove m).entries = m.entries.filter (·.1 ∉ keys) := by
  induction keys generalizing m with
  | nil => simp
  | cons k keys ih =>
    rw [List.foldl_cons, ih, BTreeMap.remove, BTreeMap.retain, List.filter_filter]
    simp [Bool.and_comm]

lemma get?_removeAll (m : BTreeMap K V) (keys : List K) (k : K) :
    (keys.foldl BTreeMap.remove m).get? k = if k ∈ keys then none else m.get? k := by
  induction keys generalizing m with
  | nil => simp
  | cons j keys ih =>
    rw [List.foldl_cons, ih, get?_remove]
    by_cases hk : k = j <;> simp [hk]

/-- `first_key_value`: the pair of the least key. -/
def first? (m : BTreeMap K V) : Option (K × V) := m.entries.head?

lemma get?_of_first? {m : BTreeMap K V} {kv : K × V} (h : m.first? = some kv) :
    m.get? kv.1 = some kv.2 :=
  (mem_entries m).1 (List.mem_of_head? h)

lemma le_of_first? {m : BTreeMap K V} {kv : K × V} (h : m.first? = some kv) {k : K} {v : V}
    (hk : m.get? k = some v) : kv.1 ≤ k := by
  obtain ⟨l, hl⟩ := List.head?_eq_some_iff.1 h
  have hmem := (mem_entries m).2 hk
  have hasc := m.ascending
  rw [hl] at hmem hasc
  rcases List.mem_cons.1 hmem with rfl | hmem
  · exact le_rfl
  · exact ((List.pairwise_cons.1 hasc).1 _ hmem).le

lemma get?_eq_none_of_first? {m : BTreeMap K V} (h : m.first? = none) (k : K) :
    m.get? k = none := by
  rw [get?, List.head?_eq_none_iff.1 h, List.lookup_nil]

/-! ### Sums over a map -/

section SumBy

variable {M : Type*} [AddCommMonoid M] (f : K → V → M)

/-- The sum of `f` over the pairs of the map. -/
def sumBy (m : BTreeMap K V) : M := (m.entries.map fun kv => f kv.1 kv.2).sum

lemma sum_filter_ne (l : List (K × V)) (hl : (l.map Prod.fst).Nodup) (k : K) :
    ((l.filter fun kv => decide (kv.1 ≠ k)).map fun kv => f kv.1 kv.2).sum +
      (l.lookup k).elim 0 (f k) = (l.map fun kv => f kv.1 kv.2).sum := by
  induction l with
  | nil => simp
  | cons kv l ih =>
    rw [List.map_cons, List.nodup_cons] at hl
    by_cases hk : kv.1 = k
    · subst hk
      have hout : l.filter (fun p => decide (p.1 ≠ kv.1)) = l := by
        rw [List.filter_eq_self]
        intro p hp
        simpa using fun h => hl.1 (List.mem_map.2 ⟨p, hp, h⟩)
      rw [List.filter_cons_of_neg (by simp), hout, List.lookup_cons_self]
      simp [add_comm]
    · rw [List.filter_cons_of_pos (by simpa using hk), lookup_cons_ite, if_neg (Ne.symm hk),
        List.map_cons, List.map_cons, List.sum_cons, List.sum_cons, ← ih hl.2]
      simp only [add_assoc]

lemma sumBy_remove (m : BTreeMap K V) (k : K) :
    (m.remove k).sumBy f + (m.get? k).elim 0 (f k) = m.sumBy f :=
  sum_filter_ne f m.entries m.nodup k

lemma sum_insertInto (l : List (K × V)) (hl : l.Pairwise fun p q => p.1 < q.1) (k : K) (v : V) :
    ((insertInto k v l).map fun kv => f kv.1 kv.2).sum + (l.lookup k).elim 0 (f k) =
      (l.map fun kv => f kv.1 kv.2).sum + f k v := by
  induction l with
  | nil => simp [insertInto]
  | cons kv l ih =>
    have hl' := List.pairwise_cons.1 hl
    rw [insertInto]
    split
    · rename_i hlt
      have hout : l.lookup k = none := by
        refine lookup_eq_none_of_notMem fun hmem => ?_
        obtain ⟨p, hp, rfl⟩ := List.mem_map.1 hmem
        exact (hlt.trans (hl'.1 p hp)).ne rfl
      rw [lookup_cons_ite, if_neg hlt.ne, hout]
      simp [add_comm]
    · split
      · rename_i heq
        subst heq
        rw [lookup_cons_ite, if_pos rfl]
        simp [add_comm, add_left_comm]
      · rename_i hne
        rw [lookup_cons_ite, if_neg hne, List.map_cons, List.sum_cons, List.map_cons,
          List.sum_cons, add_assoc, ih hl'.2, add_assoc]

lemma sumBy_insert (m : BTreeMap K V) (k : K) (v : V) :
    (m.insert k v).sumBy f + (m.get? k).elim 0 (f k) = m.sumBy f + f k v :=
  sum_insertInto f m.entries m.ascending k v

lemma sumBy_replace (m : BTreeMap K V) (k : K) (o : Option V) :
    (m.replace k o).sumBy f + (m.get? k).elim 0 (f k) = m.sumBy f + o.elim 0 (f k) := by
  cases o with
  | none => simpa [replace] using sumBy_remove f m k
  | some v => exact sumBy_insert f m k v

/-- The number of pairs whose value `p` accepts. -/
def countBy (m : BTreeMap K V) (p : V → Bool) : ℕ := (m.entries.filter fun kv => p kv.2).length

def size (m : BTreeMap K V) : ℕ := m.entries.length

lemma countBy_eq_sumBy (m : BTreeMap K V) (p : V → Bool) :
    m.countBy p = m.sumBy fun _ v => (p v).toNat := by
  unfold countBy sumBy
  induction m.entries with
  | nil => rfl
  | cons kv l ih =>
    rw [List.map_cons, List.sum_cons, ← ih]
    cases h : p kv.2
    · simp [h]
    · simp [h, Nat.add_comm]

lemma size_eq_countBy (m : BTreeMap K V) : m.size = m.countBy fun _ => true := by
  simp [size, countBy]

lemma countBy_replace (m : BTreeMap K V) (p : V → Bool) (k : K) (o : Option V) :
    (m.replace k o).countBy p + (m.get? k).elim 0 (fun v => (p v).toNat) =
      m.countBy p + o.elim 0 fun v => (p v).toNat := by
  simpa only [countBy_eq_sumBy] using sumBy_replace (fun _ v => (p v).toNat) m k o

/-- A sum over a map is at most one over a map that has no less under any key. -/
lemma sumBy_le_sumBy {f : K → V → ℕ} {m n : BTreeMap K V}
    (h : ∀ k, (m.get? k).elim 0 (f k) ≤ (n.get? k).elim 0 (f k)) : m.sumBy f ≤ n.sumBy f := by
  have hlist : ∀ (l : List (K × V)) (n : BTreeMap K V), (l.map Prod.fst).Nodup →
      (∀ k, (l.lookup k).elim 0 (f k) ≤ (n.get? k).elim 0 (f k)) →
      (l.map fun kv => f kv.1 kv.2).sum ≤ n.sumBy f := by
    intro l
    induction l with
    | nil => exact fun _ _ _ => Nat.zero_le _
    | cons kv l ih =>
      intro n hl hle
      rw [List.map_cons, List.nodup_cons] at hl
      have hhead := hle kv.1
      rw [lookup_cons_ite, if_pos rfl, Option.elim_some] at hhead
      have htail := ih (n.remove kv.1) hl.2 fun k => by
        by_cases hk : k = kv.1
        · rw [hk, lookup_eq_none_of_notMem hl.1]
          exact Nat.zero_le _
        · have hrest := hle k
          rw [lookup_cons_ite, if_neg hk] at hrest
          rwa [get?_remove, if_neg hk]
      have hsum := sumBy_remove f n kv.1
      rw [List.map_cons, List.sum_cons]
      omega
  exact hlist m.entries n m.nodup h

lemma mem_keys (m : BTreeMap K V) (k : K) :
    k ∈ m.entries.map Prod.fst ↔ (m.get? k).isSome = true := by
  rw [Option.isSome_iff_exists]
  constructor
  · intro hk
    obtain ⟨⟨j, v⟩, hmem, rfl⟩ := List.mem_map.1 hk
    exact ⟨v, (mem_entries m).1 hmem⟩
  · rintro ⟨v, hv⟩
    exact List.mem_map.2 ⟨(k, v), (mem_entries m).2 hv, rfl⟩

lemma size_eq_sumBy (m : BTreeMap K V) : m.size = m.sumBy fun _ _ => 1 := by
  rw [size_eq_countBy, countBy_eq_sumBy]
  rfl

lemma size_remove {m : BTreeMap K V} {k : K} {v : V} (h : m.get? k = some v) :
    (m.remove k).size + 1 = m.size := by
  have hsum := sumBy_remove (fun (_ : K) (_ : V) => 1) m k
  rw [size_eq_sumBy, size_eq_sumBy, ← hsum, h]
  rfl

lemma size_insert (m : BTreeMap K V) (k : K) (v : V) :
    (m.insert k v).size = if (m.get? k).isSome then m.size else m.size + 1 := by
  have hsum := m.sumBy_insert (fun _ _ => (1 : ℕ)) k v
  rw [← size_eq_sumBy, ← size_eq_sumBy] at hsum
  cases hk : m.get? k with
  | none =>
    rw [hk] at hsum
    simpa using hsum
  | some w =>
    rw [hk] at hsum
    simpa using hsum

/-- Maps with the same keys have the same size. -/
lemma size_congr {W : Type*} {m : BTreeMap K V} {n : BTreeMap K W}
    (h : ∀ k, (m.get? k).isSome = (n.get? k).isSome) : m.size = n.size := by
  have hperm : (m.entries.map Prod.fst).Perm (n.entries.map Prod.fst) :=
    (List.perm_ext_iff_of_nodup m.nodup n.nodup).2 fun k => by rw [mem_keys, mem_keys, h]
  simpa [size] using hperm.length_eq

/-- A sum that counts one key alone. -/
lemma sumBy_single {f : K → V → M} {j : K} (h : ∀ k v, k ≠ j → f k v = 0) (m : BTreeMap K V) :
    m.sumBy f = (m.get? j).elim 0 (f j) := by
  have hrest : (m.remove j).sumBy f = 0 := by
    refine List.sum_eq_zero fun x hx => ?_
    obtain ⟨kv, hkv, rfl⟩ := List.mem_map.1 hx
    exact h kv.1 kv.2 (by simpa using (List.mem_filter.1 hkv).2)
  rw [← sumBy_remove f m j, hrest, zero_add]

/-- Over a finite type of keys the sum reads every lookup, an absent key counting nothing. -/
lemma sumBy_eq_sum [Fintype K] (m : BTreeMap K V) :
    m.sumBy f = ∑ k, (m.get? k).elim 0 (f k) := by
  have hlist : ∀ l : List (K × V), (l.map Prod.fst).Nodup →
      (l.map fun kv => f kv.1 kv.2).sum = ∑ k, (l.lookup k).elim 0 (f k) := by
    intro l
    induction l with
    | nil => simp
    | cons kv l ih =>
      intro hl
      rw [List.map_cons, List.nodup_cons] at hl
      have hsplit : ∀ k, ((kv :: l).lookup k).elim 0 (f k) =
          (if k = kv.1 then f kv.1 kv.2 else 0) + (l.lookup k).elim 0 (f k) := by
        intro k
        rw [lookup_cons_ite]
        by_cases hk : k = kv.1
        · subst hk
          simp [lookup_eq_none_of_notMem hl.1]
        · simp [hk]
      rw [List.map_cons, List.sum_cons, ih hl.2, Finset.sum_congr rfl fun k _ => hsplit k,
        Finset.sum_add_distrib, Finset.sum_ite_eq']
      simp
  exact hlist m.entries m.nodup

end SumBy

variable [LinearOrder V]

/-- `insert_max`: the greater value of `k` stays. -/
def insertMax (m : BTreeMap K V) (k : K) (v : V) : BTreeMap K V :=
  if (m.get? k).all (· < v) then m.insert k v else m

/-- The pairs of `l` inserted one by one. -/
def insertAll (m : BTreeMap K V) (l : List (K × V)) : BTreeMap K V :=
  l.foldl (fun m kv => m.insertMax kv.1 kv.2) m

lemma get?_insertMax (m : BTreeMap K V) (j k : K) (v : V) :
    (m.insertMax j v).get? k = if k = j then max (m.get? j) (some v) else m.get? k := by
  rw [insertMax]
  by_cases hk : k = j
  · subst hk
    rcases hg : m.get? k with _ | w
    · simp [get?_insert]
    · rcases lt_or_ge w v with hw | hw
      · simp [hw, get?_insert, max_eq_right hw.le]
      · simp [not_lt.2 hw, hg, max_eq_left hw]
  · simp only [if_neg hk]
    split
    · rw [get?_insert, if_neg hk]
    · rfl

@[simp] lemma insertAll_nil (m : BTreeMap K V) : m.insertAll [] = m := rfl

@[simp] lemma insertAll_cons (m : BTreeMap K V) (kv : K × V) (l : List (K × V)) :
    m.insertAll (kv :: l) = (m.insertMax kv.1 kv.2).insertAll l := rfl

/-- Inserting pairs with distinct keys takes the maximum with their lookup. -/
lemma get?_insertAll (m : BTreeMap K V) {l : List (K × V)} (hl : (l.map Prod.fst).Nodup) (k : K) :
    (m.insertAll l).get? k = max (m.get? k) (l.lookup k) := by
  induction l generalizing m with
  | nil => simp
  | cons kv l ih =>
    rw [List.map_cons, List.nodup_cons] at hl
    rw [insertAll_cons, ih _ hl.2, get?_insertMax]
    rw [lookup_cons_ite]
    by_cases hk : k = kv.1
    · subst hk
      rw [if_pos rfl, if_pos rfl, lookup_eq_none_of_notMem hl.1, Option.max_none_right]
    · rw [if_neg hk, if_neg hk]

/-- A value never goes down. -/
lemma exists_insertAll_of_get? {m : BTreeMap K V} {k : K} {v : V} (l : List (K × V))
    (h : m.get? k = some v) : ∃ w, v ≤ w ∧ (m.insertAll l).get? k = some w := by
  induction l generalizing m v with
  | nil => exact ⟨v, le_rfl, h⟩
  | cons kv l ih =>
    have : ∃ w, v ≤ w ∧ (m.insertMax kv.1 kv.2).get? k = some w := by
      rw [get?_insertMax]
      split
      · rename_i hk
        exact exists_omax_left (hk ▸ h)
      · exact ⟨v, le_rfl, h⟩
    obtain ⟨w, hw, hget⟩ := this
    obtain ⟨u, hu, hu'⟩ := ih hget
    exact ⟨u, hw.trans hu, hu'⟩

/-- Every inserted pair is reached. -/
lemma exists_insertAll_of_mem (m : BTreeMap K V) {k : K} {v : V} {l : List (K × V)}
    (h : (k, v) ∈ l) : ∃ w, v ≤ w ∧ (m.insertAll l).get? k = some w := by
  induction l generalizing m with
  | nil => cases h
  | cons kv l ih =>
    rcases List.mem_cons.1 h with rfl | h
    · have : ∃ w, v ≤ w ∧ (m.insertMax k v).get? k = some w := by
        rw [get?_insertMax, if_pos rfl]
        exact exists_omax_right rfl
      obtain ⟨w, hw, hget⟩ := this
      obtain ⟨u, hu, hu'⟩ := exists_insertAll_of_get? l hget
      exact ⟨u, hw.trans hu, hu'⟩
    · exact ih _ h

/-- Insertions bring in no other value. -/
lemma get?_insertAll_cases {m : BTreeMap K V} {k : K} {v : V} {l : List (K × V)}
    (h : (m.insertAll l).get? k = some v) : m.get? k = some v ∨ (k, v) ∈ l := by
  induction l generalizing m with
  | nil => exact Or.inl h
  | cons kv l ih =>
    rcases ih h with hmax | h
    · rw [get?_insertMax] at hmax
      split at hmax
      · rename_i hk
        subst hk
        rcases (omax_eq_some.1 hmax).1 with h | h
        · exact Or.inl h
        · exact Or.inr (by simp [← Option.some.inj h])
      · exact Or.inl hmax
    · exact Or.inr (by simp [h])

/-- The map of a list of pairs, each key at its greatest value. -/
def ofList (l : List (K × V)) : BTreeMap K V := empty.insertAll l

def join (m n : BTreeMap K V) : BTreeMap K V := m.insertAll n.entries

lemma get?_ofList {l : List (K × V)} (hl : (l.map Prod.fst).Nodup) (k : K) :
    (ofList l).get? k = l.lookup k := by
  rw [ofList, get?_insertAll _ hl]
  simp

lemma mem_of_mem_ofList {l : List (K × V)} {p : K × V} (h : p ∈ (ofList l).entries) : p ∈ l := by
  rcases get?_insertAll_cases ((mem_entries _).1 h) with h | h
  · cases h
  · exact h

/-- The join is the pointwise maximum. -/
@[simp] lemma get?_join (m n : BTreeMap K V) (k : K) :
    (m.join n).get? k = max (m.get? k) (n.get? k) :=
  get?_insertAll m n.nodup k

end BTreeMap

end Rings
