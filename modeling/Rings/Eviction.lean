import Mathlib.Data.List.MinMax
import Rings.BTreeMap

/-!
Making room in a full map.

A full map first forgets every expired pair, then, while it is still full, the first of the pairs
of least rank. What goes was held, what stays is unchanged, and there is room afterwards.
-/

namespace Rings.BTreeMap

variable {K V R : Type*} [LinearOrder K] [LinearOrder R]

/-- The loop that takes out the first pair of least rank while the map is full. -/
def evict (rank : K × V → R) (capacity : ℕ) : ℕ → BTreeMap K V → BTreeMap K V × List (K × V)
  | 0, m => (m, [])
  | fuel + 1, m =>
    if m.size < capacity then (m, [])
    else match m.entries.argmin rank with
      | none => (m, [])
      | some kv =>
        let left := evict rank capacity fuel (m.remove kv.1)
        (left.1, kv :: left.2)

def makeRoom (expired : K × V → Bool) (rank : K × V → R) (capacity : ℕ) (m : BTreeMap K V) :
    BTreeMap K V × List (K × V) :=
  if m.size < capacity then (m, [])
  else
    let gone := m.entries.filter expired
    let kept := (gone.map Prod.fst).foldl remove m
    let left := evict rank capacity kept.size kept
    (left.1, gone ++ left.2)

/-- `left` is `m` without the pairs `gone`. -/
structure Without (m left : BTreeMap K V) (gone : List (K × V)) : Prop where
  get? : ∀ k, left.get? k = if k ∈ gone.map Prod.fst then none else m.get? k
  held : ∀ kv ∈ gone, m.get? kv.1 = some kv.2

variable {m left left' : BTreeMap K V} {gone gone' : List (K × V)} {k : K} {v : V}

lemma without_nil (m : BTreeMap K V) : Without m m [] :=
  ⟨fun k => by simp, fun kv hkv => by simp at hkv⟩

lemma Without.trans (h : Without m left gone) (h' : Without left left' gone') :
    Without m left' (gone ++ gone') := by
  constructor
  · intro k
    have hmem : k ∈ (gone ++ gone').map Prod.fst ↔
        k ∈ gone.map Prod.fst ∨ k ∈ gone'.map Prod.fst := by
      rw [List.map_append, List.mem_append]
    rw [h'.get?, h.get?]
    by_cases hk : k ∈ gone.map Prod.fst
    · rw [if_pos (hmem.2 (Or.inl hk)), if_pos hk, ite_self]
    · rw [if_neg hk]
      by_cases hk' : k ∈ gone'.map Prod.fst
      · rw [if_pos hk', if_pos (hmem.2 (Or.inr hk'))]
      · rw [if_neg hk', if_neg fun h => (hmem.1 h).elim hk hk']
  · intro kv hkv
    rcases List.mem_append.1 hkv with hkv | hkv
    · exact h.held kv hkv
    · have hleft := h'.held kv hkv
      rw [h.get?] at hleft
      split at hleft
      · cases hleft
      · exact hleft

lemma without_remove (h : m.get? k = some v) : Without m (m.remove k) [(k, v)] := by
  constructor
  · intro j
    rw [get?_remove]
    simp
  · intro kv hkv
    rw [List.mem_singleton.1 hkv]
    exact h

lemma without_filter (m : BTreeMap K V) (p : K × V → Bool) :
    Without m (((m.entries.filter p).map Prod.fst).foldl remove m) (m.entries.filter p) := by
  constructor
  · intro k
    rw [get?_removeAll]
  · intro kv hkv
    exact (mem_entries m).1 (List.mem_filter.1 hkv).1

lemma without_evict (rank : K × V → R) (capacity fuel : ℕ) (m : BTreeMap K V) :
    Without m (evict rank capacity fuel m).1 (evict rank capacity fuel m).2 := by
  induction fuel generalizing m with
  | zero => exact without_nil m
  | succ fuel ih =>
    rw [evict]
    split
    · exact without_nil m
    · cases harg : m.entries.argmin rank with
      | none => exact without_nil m
      | some kv =>
        have hget : m.get? kv.1 = some kv.2 := (mem_entries m).1 (List.argmin_mem harg)
        exact (without_remove hget).trans (ih (m.remove kv.1))

lemma without_makeRoom (expired : K × V → Bool) (rank : K × V → R) (capacity : ℕ)
    (m : BTreeMap K V) :
    Without m (makeRoom expired rank capacity m).1 (makeRoom expired rank capacity m).2 := by
  rw [makeRoom]
  split
  · exact without_nil m
  · exact (without_filter m expired).trans (without_evict rank capacity _ _)

/-- A loop with a turn for every pair ends with room. -/
lemma size_evict_lt {capacity : ℕ} (hcapacity : 0 < capacity) (rank : K × V → R) {fuel : ℕ}
    (hfuel : m.size ≤ fuel) : (evict rank capacity fuel m).1.size < capacity := by
  induction fuel generalizing m with
  | zero =>
    change m.size < capacity
    omega
  | succ fuel ih =>
    rw [evict]
    split
    · assumption
    · cases harg : m.entries.argmin rank with
      | none =>
        have hnil : m.entries = [] := List.argmin_eq_none.1 harg
        change m.entries.length < capacity
        rw [hnil]
        exact hcapacity
      | some kv =>
        have hsize := size_remove ((mem_entries m).1 (List.argmin_mem harg))
        apply ih
        omega

lemma size_makeRoom_lt {capacity : ℕ} (hcapacity : 0 < capacity) (expired : K × V → Bool)
    (rank : K × V → R) (m : BTreeMap K V) :
    (makeRoom expired rank capacity m).1.size < capacity := by
  rw [makeRoom]
  split
  · assumption
  · exact size_evict_lt hcapacity rank le_rfl

end Rings.BTreeMap
