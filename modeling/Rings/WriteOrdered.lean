import Rings.BTreeMap
import Rings.Did
import Rings.WriteList

/-!
A map that remembers the order in which its keys were last written.

The map keeps each value with the write that placed it, and an index from writes to keys. While
the clock that numbers the writes has not saturated, index and slots are inverse, and the map is a
list of pairs from the oldest write to the newest: a write moves its key to the end, and the
oldest key is the first.
-/

namespace Rings

/-- One stored value with the write that placed it. -/
structure Slot (V : Type*) where
  written : ℕ
  value : V

structure WriteOrderedMap (K V : Type*) [LinearOrder K] where
  slots : BTreeMap K (Slot V)
  order : BTreeMap ℕ K
  clock : ℕ

namespace WriteOrderedMap

open WriteList

variable {K V : Type*} [LinearOrder K]

def empty : WriteOrderedMap K V := ⟨.empty, .empty, 0⟩

def get (m : WriteOrderedMap K V) (key : K) : Option V := (m.slots.get? key).map Slot.value

def contains (m : WriteOrderedMap K V) (key : K) : Bool := (m.slots.get? key).isSome

def len (m : WriteOrderedMap K V) : ℕ := m.slots.size

def remove (m : WriteOrderedMap K V) (key : K) : WriteOrderedMap K V :=
  match m.slots.get? key with
  | none => m
  | some slot => { m with slots := m.slots.remove key, order := m.order.remove slot.written }

/-- Store `value` under `key` as the most recently written key. -/
def insert (m : WriteOrderedMap K V) (key : K) (value : V) : WriteOrderedMap K V :=
  let m := m.remove key
  let clock := saturatingAdd u64Max m.clock 1
  ⟨m.slots.insert key ⟨clock, value⟩, m.order.insert clock key, clock⟩

/-- The least recently written key. -/
def oldest (m : WriteOrderedMap K V) : Option K := m.order.first?.map Prod.snd

/-- Remove the least recently written key; whether there was one. -/
def popOldest (m : WriteOrderedMap K V) : Option (K × V) × WriteOrderedMap K V :=
  match m.order.first? with
  | none => (none, m)
  | some (written, key) =>
    let m := { m with order := m.order.remove written }
    match m.slots.get? key with
    | none => (none, m)
    | some slot => (some (key, slot.value), { m with slots := m.slots.remove key })

def clear (m : WriteOrderedMap K V) : WriteOrderedMap K V :=
  { m with slots := .empty, order := .empty }

/-! ### The list of the writes -/

/-- The index and the slots are inverse, and no write is ahead of the clock. -/
structure InOrder (m : WriteOrderedMap K V) : Prop where
  slot : ∀ key slot, m.slots.get? key = some slot → m.order.get? slot.written = some key
  order : ∀ written key, m.order.get? written = some key →
    ∃ slot, m.slots.get? key = some slot ∧ slot.written = written
  clock : ∀ written key, m.order.get? written = some key → written ≤ m.clock

/-- The pairs of the map, the oldest write first. -/
def toList (m : WriteOrderedMap K V) : List (K × V) :=
  m.order.entries.filterMap fun e => (m.get e.2).map fun value => (e.2, value)

variable {m : WriteOrderedMap K V} {key : K} {value : V}

lemma inOrder_empty : (empty : WriteOrderedMap K V).InOrder where
  slot key slot h := by cases h
  order written key h := by cases h
  clock written key h := by cases h

lemma InOrder.injective (h : m.InOrder) {w w' : ℕ} (hw : m.order.get? w = some key)
    (hw' : m.order.get? w' = some key) : w = w' := by
  obtain ⟨slot, hslot, rfl⟩ := h.order w key hw
  obtain ⟨slot', hslot', rfl⟩ := h.order w' key hw'
  rw [hslot] at hslot'
  cases hslot'
  rfl

/-- The keys of the list are those of the index, in its order. -/
lemma InOrder.map_toList (h : m.InOrder) : m.toList.map Prod.fst = m.order.entries.map Prod.snd := by
  have hkeys : ∀ e ∈ m.order.entries, ((m.get e.2).map fun value => (e.2, value)).map Prod.fst =
      some e.2 := by
    intro e he
    obtain ⟨slot, hslot, -⟩ := h.order e.1 e.2 ((BTreeMap.mem_entries _).1 he)
    rw [get, hslot]
    rfl
  rw [toList, List.map_filterMap, List.filterMap_congr hkeys]
  exact congrFun List.filterMap_eq_map' m.order.entries

lemma InOrder.nodup (h : m.InOrder) : (m.toList.map Prod.fst).Nodup := by
  rw [h.map_toList]
  refine List.Nodup.map_on (fun e he e' he' heq => ?_) m.order.nodup.of_map
  have hw := (BTreeMap.mem_entries m.order).1 he
  have hw' := (BTreeMap.mem_entries m.order).1 he'
  rw [heq] at hw
  exact Prod.ext (h.injective hw hw') heq

lemma InOrder.mem_toList (h : m.InOrder) : (key, value) ∈ m.toList ↔ m.get key = some value := by
  rw [toList, List.mem_filterMap]
  constructor
  · rintro ⟨e, -, he⟩
    obtain ⟨v, hv, heq⟩ := Option.map_eq_some_iff.1 he
    cases heq
    exact hv
  · intro hget
    obtain ⟨slot, hslot, rfl⟩ := Option.map_eq_some_iff.1 hget
    refine ⟨(slot.written, key), (BTreeMap.mem_entries _).2 (h.slot key slot hslot), ?_⟩
    rw [get, hslot]
    rfl

lemma InOrder.mem_keys (h : m.InOrder) : key ∈ m.toList.map Prod.fst ↔ m.contains key = true := by
  have hget : m.contains key = (m.get key).isSome := by rw [contains, get, Option.isSome_map]
  rw [hget, Option.isSome_iff_exists, List.mem_map]
  constructor
  · rintro ⟨e, he, rfl⟩
    exact ⟨e.2, h.mem_toList.1 he⟩
  · rintro ⟨v, hv⟩
    exact ⟨(key, v), h.mem_toList.2 hv, rfl⟩

lemma InOrder.len_eq (h : m.InOrder) : m.len = m.toList.length := by
  have hperm : (m.slots.entries.map Prod.fst).Perm (m.toList.map Prod.fst) :=
    (List.perm_ext_iff_of_nodup m.slots.nodup h.nodup).2 fun k => by
      rw [BTreeMap.mem_keys, h.mem_keys]
      rfl
  have hlen := hperm.length_eq
  rwa [List.length_map, List.length_map] at hlen

/-! ### What the operations do to the list -/

lemma get_remove (m : WriteOrderedMap K V) (key k : K) :
    (m.remove key).get k = if k = key then none else m.get k := by
  rw [remove, get, get]
  split
  · rename_i hnone
    split
    · rename_i hk
      rw [hk, hnone]
      rfl
    · rfl
  · rw [BTreeMap.get?_remove]
    split <;> rfl

@[simp] lemma clock_remove (m : WriteOrderedMap K V) (key : K) :
    (m.remove key).clock = m.clock := by
  rw [remove]
  split <;> rfl

lemma clock_insert (m : WriteOrderedMap K V) (key : K) (value : V) :
    (m.insert key value).clock = saturatingAdd u64Max m.clock 1 := by
  rw [insert]
  simp only [clock_remove]

lemma InOrder.remove (h : m.InOrder) (key : K) : (m.remove key).InOrder := by
  rw [WriteOrderedMap.remove]
  split
  · exact h
  · rename_i slot hslot
    have horder : ∀ {w k}, (m.order.remove slot.written).get? w = some k →
        m.order.get? w = some k ∧ k ≠ key := by
      intro w k hw
      rw [BTreeMap.get?_remove] at hw
      split at hw
      · cases hw
      · rename_i hne
        refine ⟨hw, ?_⟩
        rintro rfl
        exact hne (h.injective hw (h.slot _ slot hslot))
    refine ⟨fun k s hs => ?_, fun w k hw => ?_, fun w k hw => h.clock w k (horder hw).1⟩
    · rw [BTreeMap.get?_remove] at hs
      split at hs
      · cases hs
      · rename_i hne
        rw [BTreeMap.get?_remove, if_neg]
        · exact h.slot k s hs
        · intro heq
          have hkey := h.slot key slot hslot
          rw [← heq, h.slot k s hs] at hkey
          exact hne (Option.some.inj hkey)
    · obtain ⟨hw', hne⟩ := horder hw
      obtain ⟨s, hs, hwritten⟩ := h.order w k hw'
      refine ⟨s, ?_, hwritten⟩
      rw [BTreeMap.get?_remove, if_neg hne]
      exact hs

lemma InOrder.toList_remove (h : m.InOrder) (key : K) :
    (m.remove key).toList = forget m.toList key := by
  cases hslot : m.slots.get? key with
  | none =>
    have heq : m.remove key = m := by
      rw [WriteOrderedMap.remove, hslot]
    have hkeys : ∀ e ∈ m.toList, e.1 ≠ key := by
      intro e he hkey
      have hget := h.mem_toList.1 (show (e.1, e.2) ∈ m.toList from he)
      rw [hkey, get, hslot] at hget
      cases hget
    rw [heq, forget, List.filter_eq_self.2 fun e he => decide_eq_true (hkeys e he)]
  | some slot =>
    have hentries : (m.remove key).order.entries =
        m.order.entries.filter fun e => e.1 ≠ slot.written := by
      rw [WriteOrderedMap.remove, hslot]
      rfl
    rw [forget, toList, toList, hentries, List.filterMap_filter, List.filter_filterMap]
    refine List.filterMap_congr fun e he => ?_
    have hw := (BTreeMap.mem_entries m.order).1 he
    rw [get_remove]
    by_cases hk : e.2 = key
    · have hwritten : e.1 = slot.written := h.injective (hk ▸ hw) (h.slot key slot hslot)
      rw [if_pos hk]
      cases m.get e.2 <;> simp [hwritten, hk, Option.filter]
    · have hwritten : e.1 ≠ slot.written := by
        intro heq
        rw [heq, h.slot key slot hslot] at hw
        exact hk (Option.some.inj hw).symm
      rw [if_neg hk]
      cases m.get e.2 <;> simp [hwritten, hk, Option.filter]

/-- A key past all others goes to the end. -/
lemma entries_insert_last {β : Type*} {t : BTreeMap ℕ β} {w : ℕ} {b : β}
    (hlast : ∀ e ∈ t.entries, e.1 < w) : (t.insert w b).entries = t.entries ++ [(w, b)] := by
  have hinto : ∀ l : List (ℕ × β), (∀ e ∈ l, e.1 < w) →
      BTreeMap.insertInto w b l = l ++ [(w, b)] := by
    intro l hl
    induction l with
    | nil => rfl
    | cons e l ih =>
      have he := hl e List.mem_cons_self
      rw [BTreeMap.insertInto, if_neg (by omega), if_neg (by omega),
        ih fun e he => hl e (List.mem_cons_of_mem _ he)]
      rfl
  exact hinto t.entries hlast

lemma clock_insert_of_lt (hclock : m.clock < u64Max) (key : K) (value : V) :
    (m.insert key value).clock = m.clock + 1 := by
  rw [clock_insert, saturatingAdd]
  omega

/-- A write that the clock still numbers moves its key to the end. -/
lemma InOrder.insert (h : m.InOrder) (hclock : m.clock < u64Max) (key : K) (value : V) :
    (m.insert key value).InOrder ∧ (m.insert key value).toList = wrote m.toList key value := by
  have hr := h.remove key
  have hlist := h.toList_remove key
  have hnone : (m.remove key).slots.get? key = none := by
    have hget := m.get_remove key key
    rw [if_pos rfl] at hget
    exact Option.map_eq_none_iff.1 hget
  obtain ⟨r, hm⟩ : ∃ r, r = m.remove key := ⟨_, rfl⟩
  rw [← hm] at hr hlist hnone
  have hrclock : r.clock = m.clock := hm ▸ m.clock_remove key
  have hinsert : m.insert key value =
      ⟨r.slots.insert key ⟨r.clock + 1, value⟩, r.order.insert (r.clock + 1) key, r.clock + 1⟩ := by
    have hsat : saturatingAdd u64Max r.clock 1 = r.clock + 1 := by
      rw [saturatingAdd, hrclock]
      omega
    rw [WriteOrderedMap.insert, ← hm, hsat]
  have hlast : ∀ e ∈ r.order.entries, e.1 < r.clock + 1 := fun e he =>
    Nat.lt_succ_of_le (hr.clock e.1 e.2 ((BTreeMap.mem_entries _).1 he))
  have hslots : ∀ k, (r.slots.insert key ⟨r.clock + 1, value⟩).get? k =
      if k = key then some ⟨r.clock + 1, value⟩ else r.slots.get? k := fun k => by
    rw [BTreeMap.get?_insert]
  have horder : ∀ w, (r.order.insert (r.clock + 1) key).get? w =
      if w = r.clock + 1 then some key else r.order.get? w := fun w => by
    rw [BTreeMap.get?_insert]
  rw [hinsert]
  refine ⟨⟨fun k s hs => ?_, fun w k hw => ?_, fun w k hw => ?_⟩, ?_⟩
  · rw [hslots] at hs
    rw [horder]
    split at hs
    · rename_i hk
      cases hs
      rw [if_pos rfl, hk]
    · have hw := hr.slot k s hs
      have hle := hr.clock _ _ hw
      rw [if_neg (by omega)]
      exact hw
  · rw [horder] at hw
    rw [hslots]
    split at hw
    · rename_i hw'
      cases hw
      exact ⟨_, if_pos rfl, hw'.symm⟩
    · obtain ⟨s, hs, hwritten⟩ := hr.order w k hw
      refine ⟨s, ?_, hwritten⟩
      rw [if_neg]
      · exact hs
      · rintro rfl
        rw [hnone] at hs
        cases hs
  · rw [horder] at hw
    split at hw
    · rename_i hw'
      exact hw'.le
    · exact (hr.clock w k hw).trans (Nat.le_succ _)
  · rw [wrote, ← hlist, toList, toList]
    simp only [entries_insert_last hlast, List.filterMap_append, List.filterMap_cons,
      List.filterMap_nil]
    congr 1
    · refine List.filterMap_congr fun e he => ?_
      have hw := (BTreeMap.mem_entries _).1 he
      obtain ⟨s, hs, -⟩ := hr.order e.1 e.2 hw
      have hne : e.2 ≠ key := by
        rintro heq
        rw [heq, hnone] at hs
        cases hs
      rw [get, get, hslots, if_neg hne]
    · rw [get, hslots, if_pos rfl]
      rfl

/-- The least recently written key is the first of the list. -/
lemma InOrder.oldest_eq (h : m.InOrder) : m.oldest = (m.toList.map Prod.fst).head? := by
  rw [h.map_toList, List.head?_map]
  rfl

lemma InOrder.popOldest_nil (h : m.InOrder) (hnil : m.toList = []) : m.popOldest = (none, m) := by
  have hfirst : m.order.first? = none := by
    have hmap := h.map_toList
    rw [hnil, List.map_nil, eq_comm, List.map_eq_nil_iff] at hmap
    rw [BTreeMap.first?, hmap]
    rfl
  rw [popOldest, hfirst]

/-- Popping the oldest key takes the first pair off the list. -/
lemma InOrder.popOldest_cons (h : m.InOrder) {l : List (K × V)} (hcons : m.toList = (key, value) :: l) :
    m.popOldest = (some (key, value), m.remove key) ∧ (m.remove key).toList = l := by
  have hget : m.get key = some value := h.mem_toList.1 (hcons ▸ List.mem_cons_self)
  obtain ⟨slot, hslot, hvalue⟩ := Option.map_eq_some_iff.1 hget
  have hfirst : m.order.first? = some (slot.written, key) := by
    have holdest := h.oldest_eq
    rw [hcons] at holdest
    obtain ⟨e, he, hkey⟩ := Option.map_eq_some_iff.1 holdest
    have hkey' : e.2 = key := hkey
    have hw := BTreeMap.get?_of_first? he
    rw [hkey'] at hw
    rw [he, h.injective (h.slot key slot hslot) hw, ← hkey']
  constructor
  · rw [popOldest, hfirst, WriteOrderedMap.remove, hslot]
    simp only [hslot, hvalue]
  · have hnodup := h.nodup
    rw [h.toList_remove, hcons, forget, List.filter_cons_of_neg (by simp)]
    rw [hcons, List.map_cons, List.nodup_cons] at hnodup
    exact List.filter_eq_self.2 fun e he => decide_eq_true fun heq =>
      hnodup.1 (List.mem_map.2 ⟨e, he, heq⟩)

lemma inOrder_clear (m : WriteOrderedMap K V) : m.clear.InOrder ∧ m.clear.toList = [] :=
  ⟨⟨fun _ _ h => (by cases h), fun _ _ h => (by cases h), fun _ _ h => (by cases h)⟩, rfl⟩

end WriteOrderedMap

end Rings
