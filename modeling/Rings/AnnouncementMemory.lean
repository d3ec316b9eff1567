import Rings.Announcement
import Rings.Eviction
import Rings.LaggedMirror

/-!
The relay's memory of what owners announce: a check answers while it is fresh, and a vanished
owner keeps its last announcement for the grace period.

Each observation returns the changes that the persisted form must follow. A full memory first
forgets what is past its window, then the entry checked longest ago, absent ones first.
-/

namespace Rings.DnsRelay

open Lagged

structure MemoryWindows where
  freshMs : ℕ
  graceMs : ℕ

/-- What the memory knows of an owner; `persistedAtMs` is the sighting its persisted form holds. -/
inductive Known
  | present (announcement : Announcement) (seenAtMs persistedAtMs : ℕ)
  | absent

structure Entry where
  known : Known
  checkedAtMs : ℕ

def Known.isPresent : Known → Bool
  | present _ _ _ => true
  | absent => false

/-- The announcement an entry holds. -/
def Entry.held (e : Entry) : Option (Held Announcement) :=
  match e.known with
  | .present announcement seenAtMs persistedAtMs => some ⟨announcement, seenAtMs, persistedAtMs⟩
  | .absent => none

inductive MemoryChange (O : Type*)
  | keep (owner : O) (announcement : Announcement) (seenAtMs : ℕ)
  | forget (owner : O)

structure Observation (O E : Type*) where
  answer : Except E (Option Announcement)
  changes : List (MemoryChange O)

/-- A change made in a map of records. -/
def MemoryChange.apply {O L R : Type*} [LinearOrder L] (key : O → L)
    (record : Announcement → ℕ → R) (map : BTreeMap L R) : MemoryChange O → BTreeMap L R
  | .keep owner announcement seenAtMs => map.insert (key owner) (record announcement seenAtMs)
  | .forget owner => map.remove (key owner)

structure AnnouncementMemory (O : Type*) [Owner O] where
  entries : BTreeMap O Entry
  windows : MemoryWindows
  capacity : ℕ

namespace AnnouncementMemory

variable {O E : Type*} [Owner O]

def new (windows : MemoryWindows) (capacity : ℕ) : AnnouncementMemory O :=
  ⟨BTreeMap.empty, windows, capacity⟩

/-- The memory of the persisted records: no empty announcement, and beyond the capacity not the
least recently seen owners. -/
def restore (windows : MemoryWindows) (capacity : ℕ) (remembered : List (O × Announcement × ℕ)) :
    AnnouncementMemory O :=
  let sorted := (remembered.filter fun r => !r.2.1.isEmpty).mergeSort fun r r' => r'.2.2 ≤ r.2.2
  ⟨(sorted.take capacity).foldl
    (fun m r => m.insert r.1 ⟨.present r.2.1 r.2.2 r.2.2, r.2.2⟩) BTreeMap.empty, windows, capacity⟩

def refreshMs (m : AnnouncementMemory O) : ℕ := m.windows.graceMs / 8

def isGraced (m : AnnouncementMemory O) (seenAtMs nowMs : ℕ) : Bool :=
  nowMs - seenAtMs ≤ m.windows.graceMs

/-- The announcement `owner` keeps within the grace period. -/
def graced (m : AnnouncementMemory O) (owner : O) (nowMs : ℕ) : Option Announcement :=
  match (m.entries.get? owner).map Entry.known with
  | some (.present announcement seenAtMs _) =>
    if m.isGraced seenAtMs nowMs then some announcement else none
  | _ => none

def isExpired (m : AnnouncementMemory O) (nowMs : ℕ) (e : Entry) : Bool :=
  match e.known with
  | .present _ seenAtMs _ => m.windows.graceMs < nowMs - seenAtMs
  | .absent => m.windows.freshMs ≤ nowMs - e.checkedAtMs

/-- The change to persist when an entry goes. -/
def evicted (kv : O × Entry) : Option (MemoryChange O) :=
  match kv.2.known with
  | .present _ _ _ => some (.forget kv.1)
  | .absent => none

/-- Make room for `owner`, if it is not held yet: forget what is past its window, then, while the
memory is full, the entry checked longest ago, absent entries first. -/
def makeRoomFor (m : AnnouncementMemory O) (owner : O) (nowMs : ℕ) :
    AnnouncementMemory O × List (MemoryChange O) :=
  if (m.entries.get? owner).isSome then (m, [])
  else
    let left := m.entries.makeRoom (fun kv => m.isExpired nowMs kv.2)
      (fun kv => toLex (kv.2.known.isPresent, kv.2.checkedAtMs)) m.capacity
    ({ m with entries := left.1 }, left.2.filterMap evicted)

/-- The persisted sighting that still stands for `announcement` seen now. -/
def persistedFor (m : AnnouncementMemory O) (owner : O) (announcement : Announcement) (nowMs : ℕ) :
    Option ℕ :=
  match (m.entries.get? owner).map Entry.known with
  | some (.present known _ persistedAtMs) =>
    if known = announcement ∧ nowMs - persistedAtMs ≤ m.refreshMs then some persistedAtMs else none
  | _ => none

/-- Record that `owner` announces the non-empty `announcement`. -/
def present (m : AnnouncementMemory O) (owner : O) (announcement : Announcement) (nowMs : ℕ) :
    AnnouncementMemory O × Observation O E :=
  let persisted := m.persistedFor owner announcement nowMs
  let room := m.makeRoomFor owner nowMs
  let kept := if persisted.isNone then [.keep owner announcement nowMs] else []
  let entry := ⟨.present announcement nowMs (persisted.getD nowMs), nowMs⟩
  ({ room.1 with entries := room.1.entries.insert owner entry },
    ⟨.ok (some announcement), room.2 ++ kept⟩)

/-- Record that `owner` announces nothing. -/
def absent (m : AnnouncementMemory O) (owner : O) (nowMs : ℕ) :
    AnnouncementMemory O × Observation O E :=
  let forgotten := match (m.entries.get? owner).map Entry.known with
    | some (.present _ _ _) => [.forget owner]
    | _ => []
  let room := m.makeRoomFor owner nowMs
  ({ room.1 with entries := room.1.entries.insert owner ⟨.absent, nowMs⟩ },
    ⟨.ok none, forgotten ++ room.2⟩)

/-- Drop the entry of `owner` when it is a present one, which is past its grace. -/
def forgetUngraced (m : AnnouncementMemory O) (owner : O) :
    AnnouncementMemory O × List (MemoryChange O) :=
  match (m.entries.get? owner).map Entry.known with
  | some (.present _ _ _) => ({ m with entries := m.entries.remove owner }, [.forget owner])
  | _ => (m, [])

/-- The directory was asked for `owner`. -/
def checked (m : AnnouncementMemory O) (owner : O) (nowMs : ℕ) : AnnouncementMemory O :=
  match m.entries.get? owner with
  | some entry =>
    { m with entries := m.entries.insert owner { entry with checkedAtMs := nowMs } }
  | none => m

/-- Fold the directory's answer for `owner` into the memory. -/
def observe (m : AnnouncementMemory O) (owner : O) (observed : Except E (Option Announcement))
    (nowMs : ℕ) : AnnouncementMemory O × Observation O E :=
  match observed with
  | .ok (some announcement) =>
    if announcement.isEmpty then m.absent owner nowMs else m.present owner announcement nowMs
  | .ok none =>
    match m.graced owner nowMs with
    | some graced => (m.checked owner nowMs, ⟨.ok (some graced), []⟩)
    | none => m.absent owner nowMs
  | .error error =>
    match m.graced owner nowMs with
    | some graced => (m.checked owner nowMs, ⟨.ok (some graced), []⟩)
    | none =>
      let left := m.forgetUngraced owner
      (left.1, ⟨.error error, left.2⟩)

def remembered (m : AnnouncementMemory O) : List (O × Announcement × ℕ) :=
  m.entries.entries.filterMap fun kv => match kv.2.known with
    | .present announcement seenAtMs _ => some (kv.1, announcement, seenAtMs)
    | .absent => none

def len (m : AnnouncementMemory O) : ℕ := m.entries.size

/-! ### What is held -/

def held (m : AnnouncementMemory O) (owner : O) : Option (Held Announcement) :=
  (m.entries.get? owner).bind Entry.held

variable {m m' : AnnouncementMemory O} {owner o : O} {a : Announcement} {now : ℕ}
  {h : Held Announcement} {observed : Except E (Option Announcement)}

lemma graced_eq (m : AnnouncementMemory O) (owner : O) (now : ℕ) : m.graced owner now =
    (m.held owner).bind fun h => if m.isGraced h.movedAt now then some h.value else none := by
  rw [graced, held]
  rcases m.entries.get? owner with _ | ⟨_ | _, _⟩ <;> rfl

lemma persistedFor_eq (m : AnnouncementMemory O) (owner : O) (a : Announcement) (now : ℕ) :
    m.persistedFor owner a now = (m.held owner).bind fun h =>
      if h.value = a ∧ now - h.persistedAt ≤ m.refreshMs then some h.persistedAt else none := by
  rw [persistedFor, held]
  rcases m.entries.get? owner with _ | ⟨_ | _, _⟩ <;> rfl

omit [Owner O] in
lemma evicted_eq (kv : O × Entry) :
    evicted kv = if kv.2.held.isSome then some (.forget kv.1) else none := by
  rcases kv with ⟨k, ⟨_ | _, _⟩⟩ <;> rfl

/-- `m'` is the memory without the announcements of `gone`, and holds of `owner` what it did. -/
structure Room (m : AnnouncementMemory O) (owner : O) (m' : AnnouncementMemory O) (gone : List O) :
    Prop where
  windows : m'.windows = m.windows
  capacity : m'.capacity = m.capacity
  lost : ∀ k ∈ gone, m'.held k = none
  kept : ∀ k ∉ gone, m'.held k = m.held k
  wasHeld : ∀ k ∈ gone, m.held k ≠ none
  notOwner : owner ∉ gone

lemma room_self (m : AnnouncementMemory O) (owner : O) : Room m owner m [] :=
  ⟨rfl, rfl, by simp, fun _ _ => rfl, by simp, by simp⟩

/-- Making room forgets some owners, and not the one it makes room for. -/
lemma room_makeRoomFor (m : AnnouncementMemory O) (owner : O) (now : ℕ) :
    ∃ gone, Room m owner (m.makeRoomFor owner now).1 gone ∧
      (m.makeRoomFor owner now).2 = gone.map .forget := by
  rw [makeRoomFor]
  split
  · exact ⟨[], room_self m owner, rfl⟩
  · rename_i hnone
    have hleft := BTreeMap.without_makeRoom (fun kv => m.isExpired now kv.2)
      (fun kv => toLex (kv.2.known.isPresent, kv.2.checkedAtMs)) m.capacity m.entries
    set left := m.entries.makeRoom (fun kv => m.isExpired now kv.2)
      (fun kv => toLex (kv.2.known.isPresent, kv.2.checkedAtMs)) m.capacity with hdef
    refine ⟨(left.2.filter fun kv => kv.2.held.isSome).map Prod.fst, ⟨rfl, rfl, ?_, ?_, ?_, ?_⟩, ?_⟩
    · intro k hk
      obtain ⟨kv, hkv, rfl⟩ := List.mem_map.1 hk
      change (left.1.get? kv.1).bind Entry.held = none
      rw [hleft.get?, if_pos (List.mem_map_of_mem (List.mem_filter.1 hkv).1)]
      rfl
    · intro k hk
      change (left.1.get? k).bind Entry.held = (m.entries.get? k).bind Entry.held
      rw [hleft.get?]
      split
      · rename_i hgone
        obtain ⟨kv, hkv, rfl⟩ := List.mem_map.1 hgone
        rw [hleft.held kv hkv]
        -- what went without a change was absent
        cases hheld : kv.2.held with
        | none => exact hheld.symm
        | some h =>
          refine absurd (List.mem_map_of_mem (List.mem_filter.2 ⟨hkv, ?_⟩)) hk
          rw [hheld]
          rfl
      · rfl
    · intro k hk
      obtain ⟨kv, hkv, rfl⟩ := List.mem_map.1 hk
      obtain ⟨hmem, hsome⟩ := List.mem_filter.1 hkv
      change (m.entries.get? kv.1).bind Entry.held ≠ none
      rw [hleft.held kv hmem]
      exact Option.isSome_iff_ne_none.1 hsome
    · intro hmem
      obtain ⟨kv, hkv, rfl⟩ := List.mem_map.1 hmem
      rw [hleft.held kv (List.mem_filter.1 hkv).1] at hnone
      exact hnone rfl
    · change left.2.filterMap evicted = _
      induction left.2 with
      | nil => rfl
      | cons kv l ih =>
        rw [List.filterMap_cons, evicted_eq, ih, List.filter_cons]
        split <;> simp_all

lemma get?_makeRoomFor (m : AnnouncementMemory O) (owner : O) (now : ℕ) :
    (m.makeRoomFor owner now).1.entries.get? owner = m.entries.get? owner := by
  rw [makeRoomFor]
  split
  · rfl
  · rename_i hnone
    have hleft := BTreeMap.without_makeRoom (fun kv => m.isExpired now kv.2)
      (fun kv => toLex (kv.2.known.isPresent, kv.2.checkedAtMs)) m.capacity m.entries
    rw [Option.not_isSome_iff_eq_none] at hnone
    rw [hnone]
    change (BTreeMap.makeRoom _ _ _ _).1.get? owner = none
    rw [hleft.get?, hnone, ite_self]

/-- An entry fits in the room made for it. -/
lemma size_makeRoomFor (hcapacity : 0 < m.capacity) (hsize : m.entries.size ≤ m.capacity)
    (owner : O) (now : ℕ) (e : Entry) :
    ((m.makeRoomFor owner now).1.entries.insert owner e).size ≤ m.capacity := by
  rw [BTreeMap.size_insert, get?_makeRoomFor, makeRoomFor]
  cases hget : m.entries.get? owner with
  | some e' => exact hsize
  | none =>
    have hlt := BTreeMap.size_makeRoom_lt hcapacity (fun kv => m.isExpired now kv.2)
      (fun kv => toLex (kv.2.known.isPresent, kv.2.checkedAtMs)) m.entries
    simp only [Option.isSome_none, Bool.false_eq_true, if_false]
    exact hlt

lemma held_insert (m : AnnouncementMemory O) (owner k : O) (e : Entry) :
    ({ m with entries := m.entries.insert owner e } : AnnouncementMemory O).held k =
      if k = owner then e.held else m.held k := by
  change ((m.entries.insert owner e).get? k).bind Entry.held = _
  rw [BTreeMap.get?_insert]
  split <;> rfl

lemma held_checked (m : AnnouncementMemory O) (owner k : O) (now : ℕ) :
    (m.checked owner now).held k = m.held k := by
  rw [checked]
  cases hget : m.entries.get? owner with
  | none => rfl
  | some e =>
    rw [held_insert]
    split
    · rename_i hk
      rw [hk, held, hget]
      rfl
    · rfl

/-- The owners whose announcement a call on `owner` drops with it. -/
def dropped (m : AnnouncementMemory O) (owner : O) : List O :=
  if (m.held owner).isSome then [owner] else []

lemma mem_dropped {k : O} : k ∈ m.dropped owner ↔ k = owner ∧ (m.held owner).isSome := by
  rw [dropped]
  split <;> simp_all

lemma absent_eq (m : AnnouncementMemory O) (owner : O) (now : ℕ) :
    (m.absent owner now : AnnouncementMemory O × Observation O E) =
      ({ (m.makeRoomFor owner now).1 with
          entries := (m.makeRoomFor owner now).1.entries.insert owner ⟨.absent, now⟩ },
        ⟨.ok none, (m.dropped owner).map .forget ++ (m.makeRoomFor owner now).2⟩) := by
  rw [absent, dropped, held]
  rcases m.entries.get? owner with _ | ⟨_ | _, _⟩ <;> rfl

lemma forgetUngraced_eq (m : AnnouncementMemory O) (owner : O) :
    m.forgetUngraced owner = if (m.held owner).isSome then
      ({ m with entries := m.entries.remove owner }, [.forget owner]) else (m, []) := by
  rw [forgetUngraced, held]
  rcases m.entries.get? owner with _ | ⟨_ | _, _⟩ <;> rfl

lemma forgetUngraced_changes (m : AnnouncementMemory O) (owner : O) :
    (m.forgetUngraced owner).2 = (m.dropped owner).map .forget := by
  rw [forgetUngraced_eq, dropped]
  split <;> rfl

lemma held_forgetUngraced (m : AnnouncementMemory O) (owner k : O) :
    (m.forgetUngraced owner).1.held k = if k = owner then none else m.held k := by
  rw [forgetUngraced_eq]
  split
  · change ((m.entries.remove owner).get? k).bind Entry.held = _
    rw [BTreeMap.get?_remove]
    split <;> rfl
  · rename_i hnone
    rw [Option.not_isSome_iff_eq_none] at hnone
    split
    · rename_i hk
      rw [hk, hnone]
    · rfl

/-! ### What an observation does -/

/-- The directory answers nothing: it knows no announcement, or fails. -/
def Silent (observed : Except E (Option Announcement)) : Prop :=
  ∀ a, observed ≠ .ok (some a)

/-- The owner announces nothing. -/
def Withdrawn (observed : Except E (Option Announcement)) : Prop :=
  ∃ a, observed = .ok (some a) ∧ a.isEmpty = true

lemma observe_cases (m : AnnouncementMemory O) (owner : O)
    (observed : Except E (Option Announcement)) (now : ℕ) :
    (∃ a, observed = .ok (some a) ∧ a.isEmpty = false ∧
      m.observe owner observed now = m.present owner a now) ∨
    (Withdrawn observed ∧ m.observe owner observed now = m.absent owner now) ∨
    (Silent observed ∧ ∃ h, m.held owner = some h ∧ now - h.movedAt ≤ m.windows.graceMs ∧
      m.observe owner observed now = (m.checked owner now, ⟨.ok (some h.value), []⟩)) ∨
    (Silent observed ∧ (∀ h, m.held owner = some h → m.windows.graceMs < now - h.movedAt) ∧
      (m.observe owner observed now = m.absent owner now ∨
        ∃ error, m.observe owner observed now =
          ((m.forgetUngraced owner).1, ⟨.error error, (m.forgetUngraced owner).2⟩))) := by
  have hungraced : m.graced owner now = none →
      ∀ h, m.held owner = some h → m.windows.graceMs < now - h.movedAt := by
    intro hnone h hh
    rw [graced_eq, hh, Option.bind_some, ite_eq_right_iff] at hnone
    rw [← not_le]
    intro hle
    have hgraced : m.isGraced h.movedAt now = true := decide_eq_true hle
    cases hnone hgraced
  have hgraced : ∀ g, m.graced owner now = some g →
      ∃ h, m.held owner = some h ∧ now - h.movedAt ≤ m.windows.graceMs ∧ h.value = g := by
    intro g hg
    rw [graced_eq] at hg
    obtain ⟨h, hh, hsome⟩ := Option.bind_eq_some_iff.1 hg
    split at hsome
    · rename_i hle
      exact ⟨h, hh, of_decide_eq_true hle, Option.some.inj hsome⟩
    · cases hsome
  rcases observed with error | _ | a
  · right; right
    cases hg : m.graced owner now with
    | some g =>
      obtain ⟨h, hh, hle, rfl⟩ := hgraced g hg
      refine Or.inl ⟨fun a ha => (by cases ha), h, hh, hle, ?_⟩
      simp only [observe, hg]
    | none =>
      refine Or.inr ⟨fun a ha => (by cases ha), hungraced hg, Or.inr ⟨error, ?_⟩⟩
      simp only [observe, hg]
  · right; right
    cases hg : m.graced owner now with
    | some g =>
      obtain ⟨h, hh, hle, rfl⟩ := hgraced g hg
      refine Or.inl ⟨fun a ha => (by cases ha), h, hh, hle, ?_⟩
      simp only [observe, hg]
    | none =>
      refine Or.inr ⟨fun a ha => (by cases ha), hungraced hg, Or.inl ?_⟩
      simp only [observe, hg]
  · cases ha : a.isEmpty with
    | false =>
      refine Or.inl ⟨a, rfl, ha, ?_⟩
      simp only [observe, ha, Bool.false_eq_true, if_false]
    | true =>
      refine Or.inr (Or.inl ⟨⟨a, rfl, ha⟩, ?_⟩)
      simp only [observe, ha, if_true]

lemma room_observe (m : AnnouncementMemory O) (owner : O)
    (observed : Except E (Option Announcement)) (now : ℕ) :
    (m.observe owner observed now).1.windows = m.windows ∧
      (m.observe owner observed now).1.capacity = m.capacity := by
  obtain ⟨gone, hroom, -⟩ := room_makeRoomFor m owner now
  rcases m.observe_cases owner observed now with ⟨a, -, -, heq⟩ | ⟨-, heq⟩ | ⟨-, h, -, -, heq⟩ |
    ⟨-, -, heq | ⟨error, heq⟩⟩
  · rw [heq]
    exact ⟨hroom.windows, hroom.capacity⟩
  · rw [heq]
    exact ⟨hroom.windows, hroom.capacity⟩
  · rw [heq, checked]
    cases m.entries.get? owner <;> exact ⟨rfl, rfl⟩
  · rw [heq]
    exact ⟨hroom.windows, hroom.capacity⟩
  · rw [heq, forgetUngraced_eq]
    split <;> exact ⟨rfl, rfl⟩

lemma size_observe (hcapacity : 0 < m.capacity) (hsize : m.entries.size ≤ m.capacity)
    (owner : O) (observed : Except E (Option Announcement)) (now : ℕ) :
    (m.observe owner observed now).1.entries.size ≤ m.capacity := by
  rcases m.observe_cases owner observed now with ⟨a, -, -, heq⟩ | ⟨-, heq⟩ | ⟨-, h, -, -, heq⟩ |
    ⟨-, -, heq | ⟨error, heq⟩⟩
  · rw [heq]
    exact size_makeRoomFor hcapacity hsize owner now _
  · rw [heq]
    exact size_makeRoomFor hcapacity hsize owner now _
  · rw [heq, checked]
    cases hget : m.entries.get? owner with
    | none => exact hsize
    | some e =>
      change (m.entries.insert owner _).size ≤ _
      rw [BTreeMap.size_insert, hget]
      exact hsize
  · rw [heq]
    exact size_makeRoomFor hcapacity hsize owner now _
  · rw [heq, forgetUngraced_eq]
    split
    · exact (List.length_filter_le _ _).trans hsize
    · exact hsize

/-- What is held after an observation was held before it, or is what the directory answered. -/
lemma held_observe {k : O} (hk : (m.observe owner observed now).1.held k = some h) :
    m.held k = some h ∨ k = owner ∧ h.movedAt = now ∧ h.value.isEmpty = false ∧
      observed = .ok (some h.value) := by
  obtain ⟨gone, hroom, -⟩ := room_makeRoomFor m owner now
  have hleft : ∀ h', (m.makeRoomFor owner now).1.held k = some h' → m.held k = some h' := by
    intro h' hh'
    by_cases hgone : k ∈ gone
    · rw [hroom.lost k hgone] at hh'
      cases hh'
    · rwa [hroom.kept k hgone] at hh'
  have habsent : (m.absent (E := E) owner now).1.held k = some h → m.held k = some h := by
    intro hh
    rw [absent, held_insert] at hh
    split at hh
    · cases hh
    · exact hleft h hh
  rcases m.observe_cases owner observed now with ⟨a, hobs, ha, heq⟩ | ⟨-, heq⟩ |
    ⟨-, h', -, -, heq⟩ | ⟨-, -, heq | ⟨error, heq⟩⟩
  · rw [heq, present, held_insert] at hk
    split at hk
    · rename_i howner
      cases hk
      exact Or.inr ⟨howner, rfl, ha, hobs⟩
    · exact Or.inl (hleft h hk)
  · rw [heq] at hk
    exact Or.inl (habsent hk)
  · rw [heq, held_checked] at hk
    exact Or.inl hk
  · rw [heq] at hk
    exact Or.inl (habsent hk)
  · rw [heq, held_forgetUngraced] at hk
    split at hk
    · cases hk
    · exact Or.inl hk

/-- What the directory answered is held, and is the answer. -/
lemma observe_seen (ha : a.isEmpty = false) :
    (∃ p, (m.observe (E := E) owner (.ok (some a)) now).1.held owner = some ⟨a, now, p⟩) ∧
      (m.observe (E := E) owner (.ok (some a)) now).2.answer = .ok (some a) := by
  have heq : m.observe (E := E) owner (.ok (some a)) now = m.present owner a now := by
    rw [observe, if_neg (by simp [ha])]
  rw [heq]
  refine ⟨⟨(m.persistedFor owner a now).getD now, ?_⟩, rfl⟩
  rw [present, held_insert, if_pos rfl]
  rfl

/-- Within the grace period a silent directory changes nothing of what is held, and the answer is
what is remembered. -/
lemma observe_graced (hsilent : Silent observed) (hh : m.held owner = some h)
    (hgrace : now - h.movedAt ≤ m.windows.graceMs) :
    (m.observe owner observed now).1.held = m.held ∧
      (m.observe owner observed now).2.answer = .ok (some h.value) := by
  rcases m.observe_cases owner observed now with ⟨a, hobs, -, -⟩ | ⟨⟨a, hobs, -⟩, -⟩ |
    ⟨-, h', hh', -, heq⟩ | ⟨-, hungraced, -⟩
  · exact absurd hobs (hsilent a)
  · exact absurd hobs (hsilent a)
  · rw [hh] at hh'
    cases hh'
    rw [heq]
    exact ⟨funext fun k => held_checked m owner k now, rfl⟩
  · exact absurd (hungraced h hh) (not_lt.2 hgrace)

/-- An owner whose announcement no change forgets keeps it while others are observed. -/
lemma held_observe_other (ho : o ≠ owner)
    (hkept : .forget o ∉ (m.observe owner observed now).2.changes) :
    (m.observe owner observed now).1.held o = m.held o := by
  obtain ⟨gone, hroom, hchanges⟩ := room_makeRoomFor m owner now
  have hleft : (∀ c ∈ (m.makeRoomFor owner now).2, c ≠ .forget o) →
      (m.makeRoomFor owner now).1.held o = m.held o := by
    intro hforget
    refine hroom.kept o fun hgone => hforget (.forget o) ?_ rfl
    rw [hchanges]
    exact List.mem_map_of_mem hgone
  have habsent : .forget o ∉ (m.absent (E := E) owner now).2.changes →
      (m.absent (E := E) owner now).1.held o = m.held o := by
    intro hforget
    rw [absent_eq] at hforget
    rw [absent, held_insert, if_neg ho]
    refine hleft fun c hc heq => hforget ?_
    rw [← heq]
    exact List.mem_append_right _ hc
  rcases m.observe_cases owner observed now with ⟨a, -, -, heq⟩ | ⟨-, heq⟩ | ⟨-, h, -, -, heq⟩ |
    ⟨-, -, heq | ⟨error, heq⟩⟩
  · rw [heq] at hkept ⊢
    rw [present, held_insert, if_neg ho]
    refine hleft fun c hc hco => hkept ?_
    rw [← hco]
    exact List.mem_append_left _ hc
  · rw [heq] at hkept ⊢
    exact habsent hkept
  · rw [heq]
    exact held_checked m owner o now
  · rw [heq] at hkept ⊢
    exact habsent hkept
  · rw [heq, held_forgetUngraced, if_neg ho]

/-! ### What is remembered and restored -/

lemma mem_remembered {r : O × Announcement × ℕ} : r ∈ m.remembered ↔
    ∃ p, m.held r.1 = some ⟨r.2.1, r.2.2, p⟩ := by
  obtain ⟨o, a, t⟩ := r
  rw [remembered, List.mem_filterMap]
  constructor
  · rintro ⟨⟨k, ⟨a', t', p⟩ | _, c⟩, hmem, hsome⟩
    · cases hsome
      refine ⟨p, ?_⟩
      rw [held, (BTreeMap.mem_entries _).1 hmem]
      rfl
    · cases hsome
  · rintro ⟨p, hheld⟩
    obtain ⟨e, he, hsome⟩ := Option.bind_eq_some_iff.1 hheld
    refine ⟨(o, e), (BTreeMap.mem_entries _).2 he, ?_⟩
    rcases e with ⟨⟨a', t', p'⟩ | _, c⟩
    · cases hsome
      rfl
    · cases hsome

lemma nodup_remembered (m : AnnouncementMemory O) : (m.remembered.map Prod.fst).Nodup := by
  refine List.Nodup.sublist ?_ m.entries.nodup
  rw [remembered]
  induction m.entries.entries with
  | nil => exact List.Sublist.slnil
  | cons kv l ih =>
    rw [List.filterMap_cons, List.map_cons]
    rcases kv with ⟨k, ⟨_ | _, _⟩⟩
    · exact ih.cons_cons k
    · exact ih.cons k

def restored (r : O × Announcement × ℕ) : O × Entry :=
  (r.1, ⟨.present r.2.1 r.2.2 r.2.2, r.2.2⟩)

/-- A memory is restored from any list of distinct owners within its capacity. -/
lemma held_restore {l : List (O × Announcement × ℕ)} (hl : (l.map Prod.fst).Nodup)
    (hempty : ∀ r ∈ l, r.2.1.isEmpty = false) {capacity : ℕ} (hlen : l.length ≤ capacity)
    (windows : MemoryWindows) :
    (restore windows capacity l).held o = some h ↔ ∃ a t, (o, a, t) ∈ l ∧ h = ⟨a, t, t⟩ := by
  have hfilter : l.filter (fun r => !r.2.1.isEmpty) = l := by
    rw [List.filter_eq_self]
    intro r hr
    rw [hempty r hr]
    rfl
  obtain ⟨sorted, hsorted⟩ : ∃ sorted, sorted = l.mergeSort fun r r' => r'.2.2 ≤ r.2.2 := ⟨_, rfl⟩
  have hperm : sorted.Perm l := by
    rw [hsorted]
    exact List.mergeSort_perm l _
  have htake : sorted.take capacity = sorted :=
    List.take_of_length_le (hperm.length_eq.trans_le hlen)
  have hnodup : ((sorted.map restored).map Prod.fst).Nodup := by
    have hkeys : (sorted.map restored).map Prod.fst = sorted.map Prod.fst := by
      rw [List.map_map]
      rfl
    rw [hkeys]
    exact (hperm.map Prod.fst).nodup_iff.2 hl
  have hget : (restore windows capacity l).entries.get? o = (sorted.map restored).lookup o := by
    have hentries : (restore windows capacity l).entries =
        (sorted.map restored).foldl (fun m kv => m.insert kv.1 kv.2) BTreeMap.empty := by
      simp only [restore, hfilter, ← hsorted, htake, List.foldl_map]
      rfl
    rw [hentries, BTreeMap.get?_foldl_insert hnodup, BTreeMap.get?_empty, Option.or_none]
  rw [held, hget, Option.bind_eq_some_iff]
  constructor
  · rintro ⟨e, he, hh⟩
    obtain ⟨⟨o', a, t⟩, hmem, heq⟩ := List.mem_map.1 ((lookup_eq_some_iff hnodup).1 he)
    cases heq
    cases hh
    exact ⟨a, t, hperm.mem_iff.1 hmem, rfl⟩
  · rintro ⟨a, t, hmem, rfl⟩
    refine ⟨(restored (o, a, t)).2, ?_, rfl⟩
    rw [lookup_eq_some_iff hnodup]
    exact List.mem_map_of_mem (f := restored) (hperm.mem_iff.2 hmem)

lemma size_restore (windows : MemoryWindows) (capacity : ℕ) (l : List (O × Announcement × ℕ)) :
    (restore windows capacity l).entries.size ≤ capacity := by
  have hfold : ∀ (l : List (O × Announcement × ℕ)) (m : BTreeMap O Entry),
      (l.foldl (fun m r => m.insert r.1 ⟨.present r.2.1 r.2.2 r.2.2, r.2.2⟩) m).size ≤
        m.size + l.length := by
    intro l
    induction l with
    | nil => exact fun m => le_rfl
    | cons r l ih =>
      intro m
      rw [List.foldl_cons, List.length_cons]
      refine (ih _).trans ?_
      rw [BTreeMap.size_insert]
      split <;> omega
  have hempty : (BTreeMap.empty : BTreeMap O Entry).size = 0 := rfl
  refine (hfold _ BTreeMap.empty).trans ?_
  rw [hempty, Nat.zero_add]
  exact List.length_take_le _ _

/-! ### The persisted form follows -/

section Persisted

variable {L R : Type*} [LinearOrder L]

variable {lag : ℕ} {key : O → L} {record : Announcement → ℕ → R} {map : BTreeMap L R}
  {gone : List O}

omit [Owner O] in
lemma foldl_forget (key : O → L) (record : Announcement → ℕ → R) (gone : List O)
    (map : BTreeMap L R) :
    (gone.map MemoryChange.forget).foldl (MemoryChange.apply key record) map =
      (gone.map key).foldl BTreeMap.remove map := by
  rw [List.foldl_map, List.foldl_map]
  rfl

variable (hkey : Function.Injective key)
include hkey

lemma mirrors_present (hm : Mirrors m.refreshMs record key m.held map)
    (hclock : ∀ h, m.held owner = some h → h.movedAt ≤ now) :
    Mirrors m.refreshMs record key (m.present (E := E) owner a now).1.held
      ((m.present (E := E) owner a now).2.changes.foldl (MemoryChange.apply key record) map) := by
  obtain ⟨gone, hroom, hchanges⟩ := room_makeRoomFor m owner now
  have hrest := hm.removeAll hkey gone hroom.lost hroom.kept
  have hself : (m.present (E := E) owner a now).1.held owner =
      some ⟨a, now, (m.persistedFor owner a now).getD now⟩ := by
    rw [present, held_insert, if_pos rfl]
    rfl
  have hother : ∀ j, j ≠ owner → (m.present (E := E) owner a now).1.held j =
      (m.makeRoomFor owner now).1.held j := by
    intro j hj
    rw [present, held_insert, if_neg hj]
  have hfold : (m.present (E := E) owner a now).2.changes.foldl (MemoryChange.apply key record)
      map = (if (m.persistedFor owner a now).isNone then
        [MemoryChange.keep owner a now] else []).foldl (MemoryChange.apply key record)
          ((gone.map key).foldl BTreeMap.remove map) := by
    rw [present]
    simp only [hchanges, List.foldl_append, foldl_forget]
  rw [hfold]
  cases hpersisted : m.persistedFor owner a now with
  | none =>
    rw [hpersisted] at hself
    exact hrest.insert hkey hself hother
  | some p =>
    rw [hpersisted] at hself
    rw [persistedFor_eq] at hpersisted
    obtain ⟨h, hh, hsome⟩ := Option.bind_eq_some_iff.1 hpersisted
    split at hsome
    · rename_i hstands
      cases hsome
      have hroomheld : (m.makeRoomFor owner now).1.held owner = some h := by
        rw [hroom.kept owner hroom.notOwner, hh]
      have hlag : now ≤ h.persistedAt + m.refreshMs := by omega
      refine hrest.touch hroomheld ?_ ?_ ?_ ?_ hself hother
      · exact hstands.1.symm
      · rfl
      · exact hclock h hh
      · exact hlag
    · cases hsome

lemma mirrors_absent (hm : Mirrors lag record key m.held map) :
    Mirrors lag record key (m.absent (E := E) owner now).1.held
      ((m.absent (E := E) owner now).2.changes.foldl (MemoryChange.apply key record) map) := by
  obtain ⟨gone, hroom, hchanges⟩ := room_makeRoomFor m owner now
  rw [absent_eq, hchanges, ← List.map_append]
  simp only [foldl_forget]
  refine hm.removeAll hkey (m.dropped owner ++ gone) (fun k hk => ?_) fun k hk => ?_
  · rw [held_insert]
    split
    · rfl
    · rename_i hne
      rcases List.mem_append.1 hk with hk | hk
      · exact absurd (mem_dropped.1 hk).1 hne
      · exact hroom.lost k hk
  · rw [List.mem_append, not_or] at hk
    rw [held_insert]
    split
    · rename_i heq
      have hnone := fun hsome => hk.1 (mem_dropped.2 ⟨heq, hsome⟩)
      rw [heq]
      exact (Option.not_isSome_iff_eq_none.1 hnone).symm
    · exact hroom.kept k hk.2

lemma mirrors_forgetUngraced (hm : Mirrors lag record key m.held map) :
    Mirrors lag record key (m.forgetUngraced owner).1.held
      ((m.forgetUngraced owner).2.foldl (MemoryChange.apply key record) map) := by
  rw [forgetUngraced_changes, foldl_forget]
  refine hm.removeAll hkey (m.dropped owner) (fun k hk => ?_) fun k hk => ?_
  · rw [held_forgetUngraced, if_pos (mem_dropped.1 hk).1]
  · rw [held_forgetUngraced]
    split
    · rename_i heq
      have hnone := fun hsome => hk (mem_dropped.2 ⟨heq, hsome⟩)
      rw [heq]
      exact (Option.not_isSome_iff_eq_none.1 hnone).symm
    · rfl

/-- The persisted form follows an observation by its changes. -/
lemma mirrors_observe (hm : Mirrors m.refreshMs record key m.held map)
    (hclock : ∀ o h, m.held o = some h → h.movedAt ≤ now) :
    Mirrors m.refreshMs record key (m.observe owner observed now).1.held
      ((m.observe owner observed now).2.changes.foldl (MemoryChange.apply key record) map) := by
  rcases m.observe_cases owner observed now with ⟨a, -, -, heq⟩ | ⟨-, heq⟩ | ⟨-, h, -, -, heq⟩ |
    ⟨-, -, heq | ⟨error, heq⟩⟩
  · rw [heq]
    exact mirrors_present hkey hm (hclock owner)
  · rw [heq]
    exact mirrors_absent hkey hm
  · rw [heq]
    have hheld : (m.checked owner now).held = m.held := funext fun k => held_checked m owner k now
    change Mirrors _ _ _ (m.checked owner now).held map
    rw [hheld]
    exact hm
  · rw [heq]
    exact mirrors_absent hkey hm
  · rw [heq]
    exact mirrors_forgetUngraced hkey hm

end Persisted

end AnnouncementMemory

end Rings.DnsRelay
