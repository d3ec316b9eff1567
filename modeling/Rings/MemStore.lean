import Mathlib.Data.List.DropRight
import Rings.WriteOrdered

/-!
The store in memory: a table ordered by write recency, with an optional bound on its keys.

A write of a new key into a full table first retires the keys written least recently; a rewrite
retires nothing. In the list of the writes both are one bounded write, of weight one for each key.
-/

namespace Rings

open WriteList WriteOrderedMap

variable {K V : Type*} [LinearOrder K]

/-- The table of a memory store together with its key budget. -/
structure MemTable (K V : Type*) [LinearOrder K] where
  slots : WriteOrderedMap K V
  capacity : Option ℕ

namespace MemTable

/-- The key budget that storing `key` must first restore. -/
def budgetToRestoreFor (t : MemTable K V) (key : K) : Option ℕ :=
  t.capacity.bind fun capacity => if t.slots.contains key then none else some capacity

/-- `while slots.len() >= capacity && slots.pop_oldest().is_some() {}` -/
def restore (capacity : ℕ) : ℕ → WriteOrderedMap K V → WriteOrderedMap K V
  | 0, m => m
  | fuel + 1, m =>
    if capacity ≤ m.len then
      match m.popOldest with
      | (some _, m) => restore capacity fuel m
      | (none, m) => m
    else m

def put (t : MemTable K V) (key : K) (value : V) : MemTable K V :=
  let slots := match t.budgetToRestoreFor key with
    | some capacity => restore capacity (t.slots.len + 1) t.slots
    | none => t.slots
  { t with slots := slots.insert key value }

def new (capacity : Option ℕ) : MemTable K V := ⟨.empty, capacity⟩

def get (t : MemTable K V) (key : K) : Option V := t.slots.get key

/-- `MemStorage::put_batch` -/
def putBatch (t : MemTable K V) (records : List (K × V)) : MemTable K V :=
  records.foldl (fun t e => t.put e.1 e.2) t

/-- `MemStorage::remove_batch` -/
def removeBatch (t : MemTable K V) (keys : List K) : MemTable K V :=
  keys.foldl (fun t key => { t with slots := t.slots.remove key }) t

/-! ### Writes of a table in order -/

/-- A key weighs one in a bounded table. -/
def weigh (t : MemTable K V) : V → ℕ := fun _ => if t.capacity.isSome then 1 else 0

def budget (t : MemTable K V) : ℕ := t.capacity.getD 0

/-- The table is in order, within its capacity, and its clock numbers `ahead` writes more. -/
structure Good (t : MemTable K V) (ahead : ℕ) : Prop where
  inOrder : t.slots.InOrder
  fits : weight t.weigh t.slots.toList ≤ t.budget
  ahead : t.slots.clock + ahead ≤ u64Max
  capacity_pos : ∀ capacity, t.capacity = some capacity → 0 < capacity

variable {t : MemTable K V} {key : K} {value : V} {m : WriteOrderedMap K V} {ahead : ℕ}

lemma restore_spec (h : m.InOrder) (capacity : ℕ) {fuel : ℕ} (hfuel : m.toList.length < fuel) :
    (restore capacity fuel m).InOrder ∧ (restore capacity fuel m).clock = m.clock ∧
      (restore capacity fuel m).toList = room (fun _ => 1) capacity 1 m.toList := by
  induction fuel generalizing m with
  | zero => omega
  | succ fuel ih =>
    rw [restore, h.len_eq]
    cases hl : m.toList with
    | nil =>
      rw [h.popOldest_nil hl]
      split
      · exact ⟨h, rfl, hl⟩
      · exact ⟨h, rfl, hl⟩
    | cons e l =>
      obtain ⟨hpop, hrest⟩ := h.popOldest_cons hl
      rw [room, weight_one, hpop]
      by_cases hfull : capacity ≤ (e :: l).length
      · rw [if_pos hfull, if_pos (by omega)]
        rw [hl, List.length_cons] at hfuel
        obtain ⟨hr, hclock, hlist⟩ := ih (h.remove e.1) (by rw [hrest]; omega)
        rw [hrest] at hlist
        exact ⟨hr, hclock.trans (m.clock_remove e.1), hlist⟩
      · rw [if_neg hfull, if_neg (by omega)]
        exact ⟨h, rfl, hl⟩

lemma forget_of_not_contains (h : m.InOrder) (hkey : m.contains key = false) :
    forget m.toList key = m.toList := by
  refine List.filter_eq_self.2 fun e he => decide_eq_true fun heq => ?_
  have hmem := h.mem_keys.1 (List.mem_map_of_mem (f := Prod.fst) he)
  rw [heq, hkey] at hmem
  cases hmem

lemma length_forget (h : m.InOrder) (hkey : m.contains key = true) :
    (forget m.toList key).length < m.toList.length := by
  obtain ⟨e, he, rfl⟩ := List.mem_map.1 (h.mem_keys.2 hkey)
  refine List.length_filter_lt_length_iff_exists.2 ⟨e, he, by simp⟩

/-- A write of the table is a bounded write of its list. -/
lemma Good.put (h : t.Good (ahead + 1)) (key : K) (value : V) :
    (t.put key value).Good ahead ∧ (t.put key value).capacity = t.capacity ∧
      (t.put key value).slots.toList =
        WriteList.put t.weigh t.budget t.slots.toList key value := by
  obtain ⟨slots, hslots, hinOrder, hclock, hlist⟩ : ∃ slots : WriteOrderedMap K V,
      t.put key value = { t with slots := slots.insert key value } ∧ slots.InOrder ∧
      slots.clock = t.slots.clock ∧
      forget slots.toList key = room t.weigh t.budget (t.weigh value) (forget t.slots.toList key) := by
    have hfits := h.fits
    cases hcapacity : t.capacity with
    | none =>
      refine ⟨t.slots, ?_, h.inOrder, rfl, ?_⟩
      · rw [MemTable.put, budgetToRestoreFor, hcapacity]
        rfl
      · have hweigh : t.weigh = fun _ => 0 := by
          funext v
          rw [weigh, hcapacity]
          rfl
        rw [hweigh, room_of_fits]
        rw [weight_zero]
        exact Nat.zero_le _
    | some capacity =>
      have hweigh : t.weigh = fun _ => 1 := by
        funext v
        rw [weigh, hcapacity]
        rfl
      have hbudget : t.budget = capacity := by
        rw [budget, hcapacity]
        rfl
      rw [hweigh, hbudget, weight_one] at hfits
      rw [hweigh, hbudget]
      cases hkey : t.slots.contains key with
      | true =>
        refine ⟨t.slots, ?_, h.inOrder, rfl, ?_⟩
        · rw [MemTable.put, budgetToRestoreFor, hcapacity, Option.bind_some, hkey]
          rfl
        · have hlen := length_forget h.inOrder hkey
          rw [room_of_fits]
          rw [weight_one]
          exact (Nat.succ_le_of_lt hlen).trans hfits
      | false =>
        have hlen : t.slots.toList.length < t.slots.len + 1 := by
          rw [h.inOrder.len_eq]
          exact Nat.lt_succ_self _
        obtain ⟨hr, hrclock, hrlist⟩ := restore_spec h.inOrder capacity hlen
        refine ⟨restore capacity (t.slots.len + 1) t.slots, ?_, hr, hrclock, ?_⟩
        · rw [MemTable.put, budgetToRestoreFor, hcapacity, Option.bind_some, hkey]
          rfl
        · have hforget := forget_of_not_contains h.inOrder hkey
          have hroom : forget (room (fun _ => 1) capacity 1 t.slots.toList) key =
              room (fun _ => 1) capacity 1 t.slots.toList := by
            refine List.filter_eq_self.2 fun e he => decide_eq_true ?_
            have hmem := (drops_room (K := K) 1 t.slots.toList).suffix.subset he
            rw [← hforget] at hmem
            exact (mem_forget.1 hmem).2
          rw [hrlist, hforget, hroom]
  have hahead := h.ahead
  obtain ⟨hinserted, htoList⟩ := hinOrder.insert (by omega) key value
  have hput : (slots.insert key value).toList =
      WriteList.put t.weigh t.budget t.slots.toList key value := by
    rw [htoList, wrote, hlist]
    rfl
  rw [hslots]
  refine ⟨⟨hinserted, ?_, ?_, h.capacity_pos⟩, rfl, hput⟩
  · change weight t.weigh (slots.insert key value).toList ≤ t.budget
    rw [hput]
    refine weight_put ?_ _ _
    cases hcapacity : t.capacity with
    | none =>
      rw [weigh, hcapacity]
      exact Nat.zero_le _
    | some capacity =>
      rw [weigh, budget, hcapacity]
      exact h.capacity_pos capacity hcapacity
  · change (slots.insert key value).clock + ahead ≤ u64Max
    rw [WriteOrderedMap.clock_insert_of_lt (by omega), hclock]
    omega

lemma good_new {capacity : Option ℕ} (hpos : ∀ c, capacity = some c → 0 < c)
    (hahead : ahead ≤ u64Max) : (new capacity : MemTable K V).Good ahead where
  inOrder := inOrder_empty
  fits := Nat.zero_le _
  ahead := by
    change 0 + ahead ≤ u64Max
    omega
  capacity_pos := hpos

lemma Good.mono {fewer : ℕ} (h : t.Good ahead) (hle : fewer ≤ ahead) : t.Good fewer :=
  ⟨h.inOrder, h.fits, (Nat.add_le_add_left hle _).trans h.ahead, h.capacity_pos⟩

lemma Good.remove (h : t.Good ahead) (key : K) :
    ({ t with slots := t.slots.remove key } : MemTable K V).Good ahead where
  inOrder := h.inOrder.remove key
  fits := by
    change weight t.weigh (t.slots.remove key).toList ≤ t.budget
    rw [h.inOrder.toList_remove]
    exact (weight_le_of_sublist List.filter_sublist).trans h.fits
  ahead := by
    change (t.slots.remove key).clock + ahead ≤ u64Max
    rw [clock_remove]
    exact h.ahead
  capacity_pos := h.capacity_pos

/-- A batch of writes is a batch of bounded writes of the list. -/
lemma Good.putBatch {records : List (K × V)} (h : t.Good (ahead + records.length)) :
    (t.putBatch records).Good ahead ∧ (t.putBatch records).capacity = t.capacity ∧
      (t.putBatch records).slots.toList =
        WriteList.putBatch t.weigh t.budget t.slots.toList records := by
  induction records generalizing t with
  | nil => exact ⟨h, rfl, rfl⟩
  | cons e records ih =>
    have hlen : ahead + (e :: records).length = ahead + records.length + 1 := by
      rw [List.length_cons]
      omega
    rw [hlen] at h
    obtain ⟨hput, hcapacity, hlist⟩ := h.put e.1 e.2
    obtain ⟨hgood, hcapacity', hlist'⟩ := ih hput
    have hweigh : (t.put e.1 e.2).weigh = t.weigh := by
      funext v
      rw [weigh, weigh, hcapacity]
    have hbudget : (t.put e.1 e.2).budget = t.budget := by rw [budget, budget, hcapacity]
    refine ⟨hgood, hcapacity'.trans hcapacity, ?_⟩
    rw [hweigh, hbudget, hlist] at hlist'
    exact hlist'

lemma get_removeBatch (t : MemTable K V) (keys : List K) (k : K) :
    (t.removeBatch keys).get k = if k ∈ keys then none else t.get k := by
  induction keys generalizing t with
  | nil => rfl
  | cons key keys ih =>
    have hstep : t.removeBatch (key :: keys) =
        ({ t with slots := t.slots.remove key } : MemTable K V).removeBatch keys := rfl
    rw [hstep, ih, get, get, get_remove]
    by_cases hk : k = key
    · simp [hk]
    · simp [hk]

lemma Good.removeBatch (h : t.Good ahead) (keys : List K) : (t.removeBatch keys).Good ahead := by
  induction keys generalizing t with
  | nil => exact h
  | cons key keys ih => exact ih (h.remove key)

/-! ### Runs -/

inductive MemOp (K V : Type*)
  | put (key : K) (value : V)
  | remove (key : K)
  | clear
  | putBatch (records : List (K × V))
  | removeBatch (keys : List K)

/-- The writes of an operation, each numbered by the clock. -/
def MemOp.writes : MemOp K V → ℕ
  | .put _ _ => 1
  | .putBatch records => records.length
  | .remove _ | .clear | .removeBatch _ => 0

def step (t : MemTable K V) : MemOp K V → MemTable K V
  | .put key value => t.put key value
  | .remove key => { t with slots := t.slots.remove key }
  | .clear => { t with slots := t.slots.clear }
  | .putBatch records => t.putBatch records
  | .removeBatch keys => t.removeBatch keys

def writes : List (MemOp K V) → ℕ
  | [] => 0
  | op :: ops => op.writes + writes ops

def run (t : MemTable K V) (ops : List (MemOp K V)) : MemTable K V := ops.foldl step t

lemma Good.step {op : MemOp K V} (h : t.Good (ahead + op.writes)) :
    (t.step op).Good ahead ∧ (t.step op).capacity = t.capacity := by
  cases op with
  | put key value => exact ⟨(h.put key value).1, (h.put key value).2.1⟩
  | remove key => exact ⟨h.remove key, rfl⟩
  | clear =>
    obtain ⟨hclear, hnil⟩ := inOrder_clear t.slots
    refine ⟨⟨hclear, ?_, h.ahead, h.capacity_pos⟩, rfl⟩
    change weight t.weigh t.slots.clear.toList ≤ t.budget
    rw [hnil]
    exact Nat.zero_le _
  | putBatch records => exact ⟨h.putBatch.1, h.putBatch.2.1⟩
  | removeBatch keys =>
    refine ⟨h.removeBatch keys, ?_⟩
    change (t.removeBatch keys).capacity = t.capacity
    clear h
    induction keys generalizing t with
    | nil => rfl
    | cons key keys ih => exact ih

lemma Good.run {ops : List (MemOp K V)} (h : t.Good (ahead + writes ops)) :
    (t.run ops).Good ahead ∧ (t.run ops).capacity = t.capacity := by
  induction ops generalizing t with
  | nil => exact ⟨h, rfl⟩
  | cons op ops ih =>
    rw [writes] at h
    have hstep : t.Good (ahead + writes ops + op.writes) := h.mono (by omega)
    obtain ⟨hstep, hcapacity⟩ := hstep.step
    obtain ⟨hgood, hcapacity'⟩ := ih hstep
    exact ⟨hgood, hcapacity'.trans hcapacity⟩

lemma Good.get_putBatch {records : List (K × V)} (h : t.Good (ahead + records.length)) {k : K}
    (hk : k ∉ records.map Prod.fst) :
    (t.putBatch records).get k = t.get k ∨ (t.putBatch records).get k = none := by
  cases hget : (t.putBatch records).get k with
  | none => exact .inr rfl
  | some v =>
    left
    obtain ⟨hgood, -, hlist⟩ := h.putBatch
    have hmem := hgood.inOrder.mem_toList.2 hget
    rw [hlist] at hmem
    rw [get, h.inOrder.mem_toList.1 (mem_of_mem_putBatch hmem hk)]

/-- After any run, a batch of records is held whole, each key at its last value, exactly when its
distinct keys fit the bound; no other key gets a value; and a removed batch leaves every other key
as it was. -/
theorem batch_law {capacity : Option ℕ} (hpos : ∀ c, capacity = some c → 0 < c)
    (ops : List (MemOp K V)) (records : List (K × V)) (keys : List K)
    (hwrites : writes ops + records.length ≤ u64Max) :
    let t := (new capacity : MemTable K V).run ops
    ((∀ k v, records.reverse.lookup k = some v → (t.putBatch records).get k = some v) ↔
      ∀ c, capacity = some c → (records.map Prod.fst).toFinset.card ≤ c) ∧
    (∀ k, k ∉ records.map Prod.fst →
      (t.putBatch records).get k = t.get k ∨ (t.putBatch records).get k = none) ∧
    ∀ k, (t.removeBatch keys).get k = if k ∈ keys then none else t.get k := by
  intro t
  obtain ⟨hgood, hcapacity⟩ : t.Good records.length ∧ t.capacity = capacity :=
    (good_new hpos (by omega)).run
  have hgood' : t.Good (0 + records.length) := hgood.mono (by omega)
  refine ⟨?_, fun k hk => hgood'.get_putBatch hk, get_removeBatch t keys⟩
  obtain ⟨hafter, -, hlist⟩ := hgood'.putBatch
  have hheld : (∀ k v, records.reverse.lookup k = some v → (t.putBatch records).get k = some v) ↔
      ∀ e ∈ lastWrites records, e ∈ WriteList.putBatch t.weigh t.budget t.slots.toList records := by
    rw [← hlist]
    constructor
    · intro hall e he
      exact hafter.inOrder.mem_toList.2 (hall e.1 e.2 (mem_lastWrites.1 he))
    · intro hall k v hkv
      exact hafter.inOrder.mem_toList.1 (hall (k, v) (mem_lastWrites.2 hkv))
  have hgrows : ∀ pre, pre <+: records → (lastWrites pre).length ≤ (lastWrites records).length := by
    rintro pre ⟨post, rfl⟩
    rw [length_lastWrites, length_lastWrites, List.map_append, List.toFinset_append]
    exact Finset.card_le_card Finset.subset_union_left
  rw [hheld]
  cases hbound : capacity with
  | none =>
    rw [hbound] at hcapacity
    have hweigh : t.weigh = fun _ => 0 := by
      funext v
      rw [weigh, hcapacity]
      rfl
    rw [held_iff hgood.fits (fun e _ => by rw [hweigh]; exact Nat.zero_le _)
      fun pre _ => by rw [hweigh, weight_zero]; exact Nat.zero_le _]
    rw [hweigh, weight_zero]
    exact ⟨fun _ c hc => (by cases hc), fun _ => Nat.zero_le _⟩
  | some c =>
    rw [hbound] at hcapacity
    have hweigh : t.weigh = fun _ => 1 := by
      funext v
      rw [weigh, hcapacity]
      rfl
    have hbudget : t.budget = c := by
      rw [budget, hcapacity]
      rfl
    rw [held_iff hgood.fits (fun e _ => by rw [hweigh, hbudget]; exact hpos c hbound)
      fun pre hpre => by rw [hweigh, weight_one, weight_one]; exact hgrows pre hpre]
    rw [hweigh, hbudget, weight_one, length_lastWrites]
    exact ⟨fun hle c' hc' => Option.some.inj hc' ▸ hle, fun hall => hall c rfl⟩

/-- Over a bound of two, a batch that writes two keys, one of them twice, is held, and a batch of
three keys loses a record. -/
theorem batch_law_two :
    let t := (new (some 2) : MemTable ℕ Char).run [.put 0 'z', .put 1 'y']
    (∀ k v, [(1, 'a'), (2, 'b'), (1, 'c')].reverse.lookup k = some v →
        (t.putBatch [(1, 'a'), (2, 'b'), (1, 'c')]).get k = some v) ∧
      (¬ ∀ k v, [(1, 'a'), (2, 'b'), (3, 'c')].reverse.lookup k = some v →
        (t.putBatch [(1, 'a'), (2, 'b'), (3, 'c')]).get k = some v) ∧
      ∀ k, (t.removeBatch [1]).get k = if k ∈ [1] then none else t.get k := by
  intro t
  have hlaw : ∀ records : List (ℕ × Char), 2 + records.length ≤ u64Max → _ := fun records h =>
    @batch_law ℕ Char _ (some 2) (fun _ h => Option.some.inj h ▸ Nat.two_pos)
      [.put 0 'z', .put 1 'y'] records [1] h
  refine ⟨(hlaw _ (by decide)).1.2 fun c hc => ?_, fun hall => ?_, (hlaw [] (by decide)).2.2⟩
  · exact Option.some.inj hc ▸ by decide
  · exact absurd ((hlaw _ (by decide)).1.1 hall 2 rfl) (by decide)

/-- A bounded store holds the most recently written keys of an unbounded one that takes the same
records, as many as its bound allows. -/
theorem bounded_holds_latest {capacity : ℕ} (hpos : 0 < capacity) (records : List (K × V))
    (hwrites : records.length ≤ u64Max) :
    let bounded := (new (some capacity)).putBatch records
    let unbounded := (new none).putBatch records
    bounded.slots.toList = unbounded.slots.toList.rtake capacity ∧
      bounded.slots.len = min capacity unbounded.slots.len := by
  intro bounded unbounded
  have hbounded : (new (some capacity) : MemTable K V).Good (0 + records.length) :=
    good_new (fun c hc => Option.some.inj hc ▸ hpos) (by omega)
  have hunbounded : (new none : MemTable K V).Good (0 + records.length) :=
    good_new (fun c hc => by cases hc) (by omega)
  obtain ⟨hgood, -, hlist⟩ := hbounded.putBatch
  obtain ⟨hgood', -, hlist'⟩ := hunbounded.putBatch
  have hall : unbounded.slots.toList = lastWrites records := by
    refine hlist'.trans ?_
    have hput : ∀ (l : List (K × V)) (e : K × V),
        WriteList.put (fun _ => 0) 0 l e.1 e.2 = wrote l e.1 e.2 := by
      intro l e
      rw [WriteList.put, wrote, room_of_fits]
      rw [weight_zero]
    change records.foldl (fun l e => WriteList.put (fun _ => 0) 0 l e.1 e.2) [] = _
    simp only [hput]
    rfl
  obtain ⟨hsuffix, hlen⟩ := putBatch_one_suffix (n := capacity) hpos (l := ([] : List (K × V)))
    List.nodup_nil List.nil_suffix (Nat.min_zero capacity).symm records
  have hlist₂ : bounded.slots.toList = WriteList.putBatch (fun _ => 1) capacity [] records := hlist
  rw [← hlist₂] at hsuffix hlen
  change bounded.slots.toList <:+ lastWrites records at hsuffix
  change bounded.slots.toList.length = min capacity (lastWrites records).length at hlen
  rw [← hall] at hsuffix hlen
  constructor
  · obtain ⟨gone, hgone⟩ := hsuffix
    rw [← hgone, List.length_append] at hlen
    rw [List.rtake, ← hgone, List.length_append]
    have hdrop : gone.length + bounded.slots.toList.length - capacity = gone.length := by omega
    rw [hdrop, List.drop_left]
  · rw [hgood.inOrder.len_eq, hgood'.inOrder.len_eq]
    exact hlen

theorem bounded_holds_latest_two :
    let bounded := (new (some 2) : MemTable ℕ Char).putBatch [(1, 'a'), (2, 'b'), (3, 'c')]
    let unbounded := (new none : MemTable ℕ Char).putBatch [(1, 'a'), (2, 'b'), (3, 'c')]
    bounded.slots.toList = unbounded.slots.toList.rtake 2 ∧
      bounded.slots.len = min 2 unbounded.slots.len :=
  bounded_holds_latest Nat.two_pos [(1, 'a'), (2, 'b'), (3, 'c')] (by decide)

end MemTable

end Rings
