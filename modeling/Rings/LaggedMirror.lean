import Rings.BTreeMap

/-!
A map kept in memory, and a mirror of it that is written only when a value has moved far enough.

What is held under a key has a value, the instant it last moved to, and the instant it was last
written to the mirror. The mirror is a map of records under other keys. It mirrors what is held
when it has exactly the keys held, each with a record of the value as of an instant that lies
between those two and within the lag of the first.
-/

namespace Rings.Lagged

variable {K L V R : Type*} [LinearOrder L]

structure Held (V : Type*) where
  value : V
  movedAt : ℕ
  persistedAt : ℕ

/-- The record of what is held is at most the lag behind it. -/
def Recorded (lag : ℕ) (record : V → ℕ → R) (h : Held V) (r : R) : Prop :=
  ∃ t, r = record h.value t ∧ h.persistedAt ≤ t ∧ t ≤ h.movedAt ∧ h.movedAt ≤ h.persistedAt + lag

/-- The map `m` mirrors what is held. -/
structure Mirrors (lag : ℕ) (record : V → ℕ → R) (key : K → L) (live : K → Option (Held V))
    (m : BTreeMap L R) : Prop where
  recorded : ∀ k, Option.Rel (Recorded lag record) (live k) (m.get? (key k))
  named : ∀ l, m.get? l ≠ none → ∃ k, key k = l

section Moves

variable {lag : ℕ} {record : V → ℕ → R} {key : K → L} {live live' : K → Option (Held V)}
  {m m' : BTreeMap L R} {h h' : Held V} {k : K} {v : V} {t : ℕ}

lemma recorded_self (record : V → ℕ → R) (lag : ℕ) (v : V) (t : ℕ) :
    Recorded lag record ⟨v, t, t⟩ (record v t) :=
  ⟨t, rfl, le_rfl, le_rfl, Nat.le_add_right t lag⟩

lemma mirrors_empty (lag : ℕ) (record : V → ℕ → R) (key : K → L) :
    Mirrors lag record key (fun _ => none) BTreeMap.empty :=
  ⟨fun _ => Option.Rel.none, fun _ hl => absurd rfl hl⟩

lemma Mirrors.of_some (hm : Mirrors lag record key live m) (hk : live k = some h) :
    ∃ r, m.get? (key k) = some r ∧ Recorded lag record h r := by
  have hrec := hm.recorded k
  rw [hk] at hrec
  cases hget : m.get? (key k) with
  | none =>
    rw [hget] at hrec
    cases hrec
  | some r =>
    rw [hget] at hrec
    cases hrec with
    | some hr => exact ⟨r, rfl, hr⟩

lemma Mirrors.of_none (hm : Mirrors lag record key live m) (hk : live k = none) :
    m.get? (key k) = none := by
  have hrec := hm.recorded k
  rw [hk] at hrec
  cases hget : m.get? (key k) with
  | none => rfl
  | some r =>
    rw [hget] at hrec
    cases hrec

lemma Mirrors.of_get? {r : R} (hm : Mirrors lag record key live m)
    (hget : m.get? (key k) = some r) : ∃ h, live k = some h ∧ Recorded lag record h r := by
  cases hk : live k with
  | none =>
    rw [hm.of_none hk] at hget
    cases hget
  | some h =>
    obtain ⟨r', hr', hrec⟩ := hm.of_some hk
    rw [hget] at hr'
    cases hr'
    exact ⟨h, rfl, hrec⟩

lemma Mirrors.instants (hm : Mirrors lag record key live m) (hk : live k = some h) :
    h.persistedAt ≤ h.movedAt ∧ h.movedAt ≤ h.persistedAt + lag := by
  obtain ⟨r, -, t, -, hle, hle', hlag⟩ := hm.of_some hk
  exact ⟨hle.trans hle', hlag⟩

/-- The mirror has exactly the keys held, and of each the value as of an instant at most the lag
before it moved. -/
def Behind (lag : ℕ) (record : V → ℕ → R) (key : K → L) (live : K → Option (Held V))
    (m : BTreeMap L R) : Prop :=
  (∀ k h, live k = some h → ∃ t ≤ h.movedAt, h.movedAt ≤ t + lag ∧
    m.get? (key k) = some (record h.value t)) ∧
  ∀ l, m.get? l ≠ none → ∃ k, key k = l ∧ live k ≠ none

lemma Mirrors.behind (hm : Mirrors lag record key live m) : Behind lag record key live m := by
  constructor
  · intro k h hk
    obtain ⟨r, hget, t, rfl, hle, hle', hlag⟩ := hm.of_some hk
    exact ⟨t, hle', by omega, hget⟩
  · intro l hl
    obtain ⟨k, rfl⟩ := hm.named l hl
    refine ⟨k, rfl, fun hk => hl (hm.of_none hk)⟩

/-- A held value moves within the lag of its record, which stays. -/
lemma Mirrors.touch (hm : Mirrors lag record key live m) (hk : live k = some h)
    (hvalue : h'.value = h.value) (hpersisted : h'.persistedAt = h.persistedAt)
    (hmoved : h.movedAt ≤ h'.movedAt) (hlag : h'.movedAt ≤ h.persistedAt + lag)
    (hself : live' k = some h') (hother : ∀ j, j ≠ k → live' j = live j) :
    Mirrors lag record key live' m := by
  refine ⟨fun j => ?_, hm.named⟩
  by_cases hj : j = k
  · obtain ⟨r, hr, t, hrec, hle, hle', -⟩ := hm.of_some hk
    rw [hj, hself, hr]
    refine Option.Rel.some ⟨t, ?_, ?_, hle'.trans hmoved, ?_⟩
    · rw [hvalue]
      exact hrec
    · rw [hpersisted]
      exact hle
    · rw [hpersisted]
      exact hlag
  · rw [hother j hj]
    exact hm.recorded j

/-- A value is written as it moves. -/
lemma Mirrors.insert (hm : Mirrors lag record key live m) (hkey : Function.Injective key)
    (hself : live' k = some ⟨v, t, t⟩) (hother : ∀ j, j ≠ k → live' j = live j) :
    Mirrors lag record key live' (m.insert (key k) (record v t)) := by
  constructor
  · intro j
    rw [BTreeMap.get?_insert]
    by_cases hj : j = k
    · rw [if_pos (congrArg key hj), hj, hself]
      exact Option.Rel.some (recorded_self record lag v t)
    · rw [if_neg fun h => hj (hkey h), hother j hj]
      exact hm.recorded j
  · intro l hl
    rw [BTreeMap.get?_insert] at hl
    split at hl
    · rename_i hk
      exact ⟨k, hk.symm⟩
    · exact hm.named l hl

lemma Mirrors.removeAll (hm : Mirrors lag record key live m) (hkey : Function.Injective key)
    (ks : List K) (hgone : ∀ k ∈ ks, live' k = none) (hother : ∀ k, k ∉ ks → live' k = live k) :
    Mirrors lag record key live' ((ks.map key).foldl BTreeMap.remove m) := by
  constructor
  · intro k
    rw [BTreeMap.get?_removeAll]
    by_cases hk : k ∈ ks
    · rw [if_pos (List.mem_map_of_mem hk), hgone k hk]
      exact Option.Rel.none
    · have hmem : key k ∉ ks.map key := fun h => by
        obtain ⟨j, hj, heq⟩ := List.mem_map.1 h
        exact hk (hkey heq ▸ hj)
      rw [if_neg hmem, hother k hk]
      exact hm.recorded k
  · intro l hl
    rw [BTreeMap.get?_removeAll] at hl
    split at hl
    · exact absurd rfl hl
    · exact hm.named l hl

/-- The mirror is written anew from what is held. -/
lemma Mirrors.snapshot (hm : Mirrors lag record key live m)
    (hget : ∀ k, m'.get? (key k) = (live k).map fun h => record h.value h.movedAt)
    (hnamed : ∀ l, m'.get? l ≠ none → ∃ k, key k = l) : Mirrors lag record key live m' := by
  refine ⟨fun k => ?_, hnamed⟩
  rw [hget]
  cases hk : live k with
  | none => exact Option.Rel.none
  | some h =>
    obtain ⟨hle, hlag⟩ := hm.instants hk
    exact Option.Rel.some ⟨h.movedAt, rfl, hle, le_rfl, hlag⟩

structure Reloaded (lag : ℕ) (record : V → ℕ → R) (key : K → L) (live live' : K → Option (Held V))
    (m : BTreeMap L R) : Prop where
  none : ∀ k, live k = none → live' k = none
  some : ∀ k h, live k = some h → ∃ t, m.get? (key k) = some (record h.value t) ∧
    live' k = some ⟨h.value, t, t⟩ ∧ h.persistedAt ≤ t ∧ t ≤ h.movedAt

lemma Mirrors.reload (hm : Mirrors lag record key live m)
    (h : Reloaded lag record key live live' m) : Mirrors lag record key live' m := by
  refine ⟨fun k => ?_, hm.named⟩
  cases hk : live k with
  | none =>
    rw [h.none k hk, hm.of_none hk]
    exact Option.Rel.none
  | some held =>
    obtain ⟨t, hget, hlive, -, -⟩ := h.some k held hk
    rw [hget, hlive]
    exact Option.Rel.some (recorded_self record lag _ t)

/-- Reading what the mirror has under each key reads what is held anew. -/
lemma Mirrors.reloaded (hm : Mirrors lag record key live m)
    (hnone : ∀ k, m.get? (key k) = none → live' k = none)
    (hsome : ∀ k h t, live k = some h → m.get? (key k) = some (record h.value t) →
      live' k = some ⟨h.value, t, t⟩) : Reloaded lag record key live live' m := by
  constructor
  · intro k hk
    exact hnone k (hm.of_none hk)
  · intro k held hk
    obtain ⟨r, hget, t, rfl, hle, hle', -⟩ := hm.of_some hk
    exact ⟨t, hget, hsome k held t hk hget, hle, hle'⟩

end Moves

end Rings.Lagged
