import Rings.RelayMemories

/-!
The relay's memories and their journals stay in step.

The invariant says that the file of each journal replays to a map that mirrors the memory, at most
an eighth of its window behind it. Every call keeps it by the changes it journals, a compaction by
its snapshot, and a restart because it reads the mirror.
-/

namespace Rings.DnsRelay

open Lagged

variable {O E : Type*} [Owner O]

/-! ### Records -/

lemma mapM_txtValue (values : List TxtValue) :
    (values.map TxtValue.asStr).mapM TxtValue.new = .ok values := by
  induction values with
  | nil => rfl
  | cons value values ih =>
    rw [List.map_cons, List.mapM_cons, ih, TxtValue.new_asStr]
    rfl

lemma txtPart_of (r : SubName × List TxtValue) :
    MemoryRecord.txtPart (r.1.asStr, r.2.map TxtValue.asStr) = .ok r := by
  simp only [MemoryRecord.txtPart, mapM_txtValue, SubName.new_asStr]

lemma mapM_txtPart (txt : List (SubName × List TxtValue)) :
    (txt.map fun r => (r.1.asStr, r.2.map TxtValue.asStr)).mapM MemoryRecord.txtPart = .ok txt := by
  induction txt with
  | nil => rfl
  | cons r txt ih =>
    rw [List.map_cons, List.mapM_cons, ih, txtPart_of]
    rfl

lemma intoParts_of (a : Announcement) (t : ℕ) : (MemoryRecord.of a t).intoParts = some (a, t) := by
  simp only [MemoryRecord.intoParts, MemoryRecord.of, mapM_txtPart, Announcement.new_parts]

/-! ### A journal and its map -/

section Writes

variable {K V C : Type*} [LinearOrder K] {json : Json K V} {file : Option ByteArray}
  {map : BTreeMap K V} {journal : Journal}

/-- Changes journaled one by one leave the map they are applied to. -/
lemma holds_changes {write : Option ByteArray × Journal → C → Option ByteArray × Journal}
    {op : C → Op K V} (hwrite : ∀ s c, write s c = (op c).run json s)
    (htail : ∀ c, (op c).tail .whole = .whole) (h : Holds json file map .whole)
    (changes : List C) : Holds json (changes.foldl write (file, journal)).1
      (changes.foldl (fun m c => (op c).apply m) map) .whole := by
  induction changes generalizing file journal map with
  | nil => exact h
  | cons c changes ih =>
    have hop : Holds json ((op c).run json (file, journal)).1 ((op c).apply map)
        ((op c).tail .whole) := h.op (op c)
    rw [htail] at hop
    rw [List.foldl_cons, List.foldl_cons, hwrite]
    exact ih hop

lemma holds_snapshot (m : BTreeMap K V) :
    Holds json (Journal.compact json m.entries).1 m .whole := by
  have hsnapshot := holds_compact json m.entries
  rwa [ofEntries_entries] at hsnapshot

lemma get?_ofEntries {l : List (K × V)} (hl : (l.map Prod.fst).Nodup) {k : K} {v : V} :
    (ofEntries l).get? k = some v ↔ (k, v) ∈ l := by
  rw [ofEntries, BTreeMap.get?_foldl_insert hl, BTreeMap.get?_empty, Option.or_none,
    lookup_eq_some_iff hl]

/-- Distinct keys of a map are no more than its pairs. -/
lemma length_le_size {l : List K} (hl : l.Nodup) (h : ∀ k ∈ l, map.get? k ≠ none) :
    l.length ≤ map.size := by
  have hsub : l ⊆ map.entries.map Prod.fst := by
    intro k hk
    rw [BTreeMap.mem_keys]
    exact Option.isSome_iff_ne_none.2 (h k hk)
  have hle := (List.subperm_of_subset hl hsub).length_le
  rwa [List.length_map] at hle

end Writes

section Lists

variable {K L V R : Type*} [LinearOrder L] {lag : ℕ} {record : V → ℕ → R} {key : K → L}
  {live live' : K → Option (Held V)} {map : BTreeMap L R} {l : List (K × V × ℕ)}

/-- A snapshot lists what is held, as it is now. -/
lemma mirrors_ofEntries (hm : Mirrors lag record key live map) (hkey : Function.Injective key)
    (hnodup : (l.map Prod.fst).Nodup)
    (hl : ∀ k v t, (k, v, t) ∈ l ↔ ∃ p, live k = some ⟨v, t, p⟩) :
    Mirrors lag record key live (ofEntries (l.map fun r => (key r.1, record r.2.1 r.2.2))) := by
  have hkeys : ((l.map fun r => (key r.1, record r.2.1 r.2.2)).map Prod.fst).Nodup := by
    have hlabels : (l.map fun r => (key r.1, record r.2.1 r.2.2)).map Prod.fst =
        (l.map Prod.fst).map key := by
      rw [List.map_map, List.map_map]
      rfl
    rw [hlabels]
    exact hnodup.map hkey
  have hmem : ∀ k s, (ofEntries (l.map fun r => (key r.1, record r.2.1 r.2.2))).get? k = some s ↔
      ∃ r ∈ l, key r.1 = k ∧ record r.2.1 r.2.2 = s := by
    intro k s
    rw [get?_ofEntries hkeys, List.mem_map]
    simp only [Prod.mk.injEq]
  refine hm.snapshot (fun k => ?_) fun k hk => ?_
  · ext s
    rw [hmem, Option.map_eq_some_iff]
    constructor
    · rintro ⟨⟨k', v, t⟩, hr, hk, hs⟩
      obtain ⟨p, hlive⟩ := (hl k' v t).1 hr
      exact ⟨⟨v, t, p⟩, (hkey hk) ▸ hlive, hs⟩
    · rintro ⟨⟨v, t, p⟩, hlive, hs⟩
      exact ⟨(k, v, t), (hl k v t).2 ⟨p, hlive⟩, rfl, hs⟩
  · obtain ⟨s, hs⟩ := Option.ne_none_iff_exists'.1 hk
    obtain ⟨r, -, hkey, -⟩ := (hmem k s).1 hs
    exact ⟨r.1, hkey⟩

/-- What is restored from a list of what the mirror has is read from the mirror. -/
lemma reloaded_of_list (hm : Mirrors lag record key live map)
    (hlive : ∀ k h, live' k = some h ↔ ∃ v t, (k, v, t) ∈ l ∧ h = ⟨v, t, t⟩)
    (hl : ∀ k v t, (k, v, t) ∈ l ↔ ∃ h, live k = some h ∧ h.value = v ∧
      map.get? (key k) = some (record v t)) : Reloaded lag record key live live' map := by
  refine hm.reloaded (fun k hk => ?_) fun k h t hk hget => ?_
  · rw [Option.eq_none_iff_forall_ne_some]
    intro h hh
    obtain ⟨v, t, hmem, -⟩ := (hlive k h).1 hh
    obtain ⟨-, -, -, hget⟩ := (hl k v t).1 hmem
    rw [hk] at hget
    cases hget
  · exact (hlive k _).2 ⟨h.value, t, (hl k h.value t).2 ⟨h, hk, rfl, hget⟩, rfl⟩

lemma nodup_read (key : K → L) {read : L × R → Option (K × V × ℕ)} (map : BTreeMap L R)
    (hread : ∀ kv r, read kv = some r → key r.1 = kv.1) :
    ((map.entries.filterMap read).map Prod.fst).Nodup := by
  refine List.Nodup.of_map key ?_
  refine List.Nodup.sublist ?_ map.nodup
  induction map.entries with
  | nil => exact List.Sublist.slnil
  | cons kv entries ih =>
    rw [List.filterMap_cons, List.map_cons]
    cases hr : read kv with
    | none => exact ih.cons kv.1
    | some r =>
      rw [List.map_cons, List.map_cons, hread kv r hr]
      exact ih.cons_cons kv.1

end Lists

/-! ### The memory of announcements -/

namespace Recall

variable {json : Json (List Char) MemoryRecord} {r : Recall O} {owner o : O} {clock now : ℕ}
  {observed : Except E (Option Announcement)} {map : BTreeMap (List Char) MemoryRecord}
  {h : Held Announcement}

/-- The map mirrors the memory. -/
abbrev Mirrored (m : AnnouncementMemory O) (map : BTreeMap (List Char) MemoryRecord) : Prop :=
  Mirrors m.refreshMs MemoryRecord.of Owner.label m.held map

/-- The memory is within its capacity and holds no announcement of nothing, no sighting is to
come, and the file replays to a mirror of it. -/
structure Good (json : Json (List Char) MemoryRecord) (r : Recall O) (clock : ℕ) : Prop where
  size : r.memory.entries.size ≤ r.memory.capacity
  announces : ∀ o h, r.memory.held o = some h → h.value.isEmpty = false
  clock : ∀ o h, r.memory.held o = some h → h.movedAt ≤ clock
  mirrored : ∃ map, Holds json r.file map .whole ∧ Mirrored r.memory map

def op : MemoryChange O → Op (List Char) MemoryRecord
  | .keep owner announcement seenAtMs =>
    .put (Owner.label owner) (MemoryRecord.of announcement seenAtMs)
  | .forget owner => .remove (Owner.label owner)

lemma holds_journalChange (hfile : Holds json r.file map .whole) (changes : List (MemoryChange O)) :
    Holds json (changes.foldl (journalChange json) (r.file, r.journal)).1
      (changes.foldl (MemoryChange.apply Owner.label MemoryRecord.of) map) .whole := by
  have hwrite : ∀ s (c : MemoryChange O), journalChange json s c = (op c).run json s := by
    intro s c
    cases c <;> rfl
  have htail : ∀ c : MemoryChange O, (op c).tail .whole = .whole := by
    intro c
    cases c <;> rfl
  have hfold : (fun m (c : MemoryChange O) => (op c).apply m) =
      MemoryChange.apply Owner.label MemoryRecord.of := by
    funext m c
    cases c <;> rfl
  rw [← hfold]
  exact holds_changes hwrite htail hfile changes

lemma mirrored_snapshot {m : AnnouncementMemory O} (hm : Mirrored m map) :
    Mirrored m (snapshot m) :=
  mirrors_ofEntries hm label_injective m.nodup_remembered fun _ _ _ =>
    AnnouncementMemory.mem_remembered

/-- Journaling the changes leaves a file that replays to a mirror, compacted or not. -/
lemma mirrored_journalChanges (hfile : Holds json r.file map .whole)
    {changes : List (MemoryChange O)}
    (hm : Mirrored r.memory (changes.foldl (MemoryChange.apply Owner.label MemoryRecord.of) map)) :
    ∃ map', Holds json (r.journalChanges json changes).file map' .whole ∧
      Mirrored r.memory map' := by
  rw [journalChanges]
  simp only
  split
  · exact ⟨snapshot r.memory, holds_snapshot _, mirrored_snapshot hm⟩
  · exact ⟨_, holds_journalChange hfile changes, hm⟩

lemma Good.observe (hr : r.Good json clock) (hcapacity : 0 < r.memory.capacity)
    (hclock : clock ≤ now) (owner : O) (observed : Except E (Option Announcement)) :
    (r.observe json owner observed now).1.Good json now := by
  obtain ⟨map, hfile, hm⟩ := hr.mirrored
  obtain ⟨hwindows, hcap⟩ := AnnouncementMemory.room_observe r.memory owner observed now
  have hbefore : ∀ o h, r.memory.held o = some h → h.movedAt ≤ now := fun o h hh =>
    (hr.clock o h hh).trans hclock
  refine ⟨?_, fun o h hh => ?_, fun o h hh => ?_, ?_⟩
  · change (r.memory.observe owner observed now).1.entries.size ≤ _
    refine (AnnouncementMemory.size_observe hcapacity hr.size owner observed now).trans ?_
    exact hcap.ge
  · rcases AnnouncementMemory.held_observe hh with hold | ⟨-, -, hne, -⟩
    · exact hr.announces o h hold
    · exact hne
  · rcases AnnouncementMemory.held_observe hh with hold | ⟨-, hmoved, -, -⟩
    · exact (hr.clock o h hold).trans hclock
    · exact hmoved.le
  · have hrefresh : (r.memory.observe owner observed now).1.refreshMs = r.memory.refreshMs := by
      rw [AnnouncementMemory.refreshMs, hwindows]
      rfl
    have hmirrored : Mirrored (r.memory.observe owner observed now).1
        ((r.memory.observe owner observed now).2.changes.foldl
          (MemoryChange.apply Owner.label MemoryRecord.of) map) := by
      rw [Mirrored, hrefresh]
      exact AnnouncementMemory.mirrors_observe label_injective hm hbefore
    exact mirrored_journalChanges
      (r := { r with memory := (r.memory.observe owner observed now).1 }) hfile hmirrored

def read (kv : List Char × MemoryRecord) : Option (O × Announcement × ℕ) :=
  (Owner.fromLabel kv.1).bind fun owner =>
    kv.2.intoParts.map fun parts => (owner, parts.1, parts.2)

lemma read_eq_some {kv : List Char × MemoryRecord} {a : Announcement} {t : ℕ} :
    read kv = some (o, a, t) ↔ Owner.label o = kv.1 ∧ kv.2.intoParts = some (a, t) := by
  rw [read, Option.bind_eq_some_iff]
  constructor
  · rintro ⟨owner, howner, hparts⟩
    obtain ⟨⟨a', t'⟩, hpair, heq⟩ := Option.map_eq_some_iff.1 hparts
    cases heq
    exact ⟨Owner.label_fromLabel kv.1 o howner, hpair⟩
  · rintro ⟨hlabel, hparts⟩
    refine ⟨o, ?_, ?_⟩
    · rw [← hlabel]
      exact Owner.fromLabel_label o
    · rw [hparts]
      rfl

lemma mem_read {m : AnnouncementMemory O} (hm : Mirrored m map) (o : O) (a : Announcement) (t : ℕ) :
    (o, a, t) ∈ map.entries.filterMap read ↔ ∃ h, m.held o = some h ∧ h.value = a ∧
      map.get? (Owner.label o) = some (MemoryRecord.of a t) := by
  rw [List.mem_filterMap]
  constructor
  · rintro ⟨⟨label, record⟩, hmem, hread⟩
    obtain ⟨hlabel, hparts⟩ := read_eq_some.1 hread
    cases hlabel
    have hget := (BTreeMap.mem_entries map).1 hmem
    obtain ⟨h, hh, t', hrecord, -⟩ := hm.of_get? hget
    have hrecord' : record = MemoryRecord.of h.value t' := hrecord
    rw [hrecord', intoParts_of] at hparts
    cases hparts
    exact ⟨h, hh, rfl, hrecord' ▸ hget⟩
  · rintro ⟨h, -, -, hget⟩
    exact ⟨_, (BTreeMap.mem_entries map).2 hget, read_eq_some.2 ⟨rfl, intoParts_of a t⟩⟩

/-- A journal opens to the memory it mirrors, at most the lag behind. -/
lemma Good.open_ (hr : r.Good json clock) : ∃ r' map,
    Recall.open_ json r.memory.windows r.memory.capacity r.file = .ok r' ∧ r'.Good json clock ∧
      r'.memory.windows = r.memory.windows ∧ r'.memory.capacity = r.memory.capacity ∧
      Reloaded r.memory.refreshMs MemoryRecord.of Owner.label r.memory.held r'.memory.held map := by
  obtain ⟨map, hfile, hm⟩ := hr.mirrored
  obtain ⟨journal, hopen⟩ := hfile.open_ (by decide)
  have hmem := mem_read hm
  obtain ⟨l, hl⟩ : ∃ l : List (O × Announcement × ℕ), l = map.entries.filterMap read := ⟨_, rfl⟩
  rw [← hl] at hmem
  have hnodup : (l.map Prod.fst).Nodup := by
    rw [hl]
    exact nodup_read Owner.label map fun kv r hread => (read_eq_some.1 hread).1
  have hlen : l.length ≤ r.memory.capacity := by
    have hheld : ∀ k ∈ l.map Prod.fst, r.memory.entries.get? k ≠ none := by
      intro k hk
      obtain ⟨⟨o, a, t⟩, hmemr, rfl⟩ := List.mem_map.1 hk
      obtain ⟨h, hh, -⟩ := (hmem o a t).1 hmemr
      intro hnone
      rw [AnnouncementMemory.held, hnone] at hh
      cases hh
    have hle := length_le_size hnodup hheld
    rw [List.length_map] at hle
    exact hle.trans hr.size
  have hannounces : ∀ e ∈ l, e.2.1.isEmpty = false := by
    rintro ⟨o, a, t⟩ he
    obtain ⟨h, hh, rfl, -⟩ := (hmem o a t).1 he
    exact hr.announces o h hh
  have hrestored : ∀ o h, (AnnouncementMemory.restore r.memory.windows r.memory.capacity l).held o =
      some h ↔ ∃ a t, (o, a, t) ∈ l ∧ h = ⟨a, t, t⟩ := fun o h =>
    AnnouncementMemory.held_restore hnodup hannounces hlen r.memory.windows
  have hreloaded := reloaded_of_list hm hrestored hmem
  have hold : ∀ o h, (AnnouncementMemory.restore r.memory.windows r.memory.capacity l).held o =
      some h → ∃ h', r.memory.held o = some h' ∧ h.value = h'.value ∧ h.movedAt ≤ h'.movedAt := by
    intro o h hh
    cases hold : r.memory.held o with
    | none =>
      rw [hreloaded.none o hold] at hh
      cases hh
    | some h' =>
      obtain ⟨t, -, heq, -, hle⟩ := hreloaded.some o h' hold
      rw [heq] at hh
      cases hh
      exact ⟨h', rfl, rfl, hle⟩
  refine ⟨⟨AnnouncementMemory.restore r.memory.windows r.memory.capacity l, journal, r.file⟩, map,
    ?_, ⟨?_, fun o h hh => ?_, fun o h hh => ?_, map, hfile, hm.reload hreloaded⟩, rfl, rfl,
    hreloaded⟩
  · rw [Recall.open_, hopen, hl]
    rfl
  · exact AnnouncementMemory.size_restore _ _ _
  · obtain ⟨h', hh', hvalue, -⟩ := hold o h hh
    rw [hvalue]
    exact hr.announces o h' hh'
  · obtain ⟨h', hh', -, hle⟩ := hold o h hh
    exact hle.trans (hr.clock o h' hh')

end Recall

/-! ### The address registry -/

namespace AddressRegistry

variable {json : Json Ipv6Addr BookRecord} {r : AddressRegistry O} {owner o : O} {now : ℕ}
  {map : BTreeMap Ipv6Addr BookRecord} {address : Ipv6Addr}

/-- The map mirrors the book. -/
abbrev Mirrored (book : AddressBook O) (map : BTreeMap Ipv6Addr BookRecord) : Prop :=
  Mirrors book.refreshMs BookRecord.of id book.held map

/-- The book is within its capacity and binds addresses to their owners, and the file replays to
a mirror of it. -/
structure Good (json : Json Ipv6Addr BookRecord) (r : AddressRegistry O) : Prop where
  size : r.book.bindings.size ≤ r.book.capacity
  owned : ∀ address o, r.book.ownerAt address = some o → r.plan.addressOf o = address
  mirrored : ∃ map, Holds json r.file map .whole ∧ Mirrored r.book map

def op : BookChange O → Op Ipv6Addr BookRecord
  | .bind address owner answeredAtMs => .put address (BookRecord.of owner answeredAtMs)
  | .unbind address => .remove address

lemma holds_journalChange (hfile : Holds json r.file map .whole) (changes : List (BookChange O)) :
    Holds json (changes.foldl (journalChange json) (r.file, r.journal)).1
      (changes.foldl (BookChange.apply BookRecord.of) map) .whole := by
  have hwrite : ∀ s (c : BookChange O), journalChange json s c = (op c).run json s := by
    intro s c
    cases c <;> rfl
  have htail : ∀ c : BookChange O, (op c).tail .whole = .whole := by
    intro c
    cases c <;> rfl
  have hfold : (fun m (c : BookChange O) => (op c).apply m) = BookChange.apply BookRecord.of := by
    funext m c
    cases c <;> rfl
  rw [← hfold]
  exact holds_changes hwrite htail hfile changes

lemma nodup_entries (book : AddressBook O) : (book.entries.map Prod.fst).Nodup := by
  have hkeys : book.entries.map Prod.fst = book.bindings.entries.map Prod.fst := by
    rw [AddressBook.entries, List.map_map]
    rfl
  rw [hkeys]
  exact book.bindings.nodup

lemma mirrored_snapshot {book : AddressBook O} (hm : Mirrored book map) :
    Mirrored book (snapshot book) :=
  mirrors_ofEntries hm Function.injective_id (nodup_entries book) fun _ _ _ =>
    AddressBook.mem_entries

/-- Journaling the changes leaves a file that replays to a mirror, compacted or not. -/
lemma mirrored_journalChanges (hfile : Holds json r.file map .whole) {changes : List (BookChange O)}
    (hm : Mirrored r.book (changes.foldl (BookChange.apply BookRecord.of) map)) :
    ∃ map', Holds json (r.journalChanges json changes).file map' .whole ∧
      Mirrored r.book map' := by
  rw [journalChanges]
  simp only
  split
  · exact ⟨snapshot r.book, holds_snapshot _, mirrored_snapshot hm⟩
  · exact ⟨_, holds_journalChange hfile changes, hm⟩

lemma addressFor_of_error {error : AddressCollision}
    (h : r.book.bind (r.plan.addressOf owner) owner now = .error error) :
    r.addressFor json owner now = (r, .error error) := by
  simp only [addressFor, h]

lemma addressFor_of_ok {book : AddressBook O} {changes : List (BookChange O)}
    (h : r.book.bind (r.plan.addressOf owner) owner now = .ok (book, changes)) :
    r.addressFor json owner now =
      (({ r with book } : AddressRegistry O).journalChanges json changes,
        .ok (r.plan.addressOf owner)) := by
  simp only [addressFor, h]

lemma Good.addressFor (hr : r.Good json) (hcapacity : 0 < r.book.capacity) (owner : O) (now : ℕ) :
    (r.addressFor json owner now).1.Good json ∧
      (r.addressFor json owner now).1.plan = r.plan ∧
      (r.addressFor json owner now).1.book.retentionMs = r.book.retentionMs ∧
      (r.addressFor json owner now).1.book.capacity = r.book.capacity := by
  cases hbind : r.book.bind (r.plan.addressOf owner) owner now with
  | error error =>
    rw [addressFor_of_error hbind]
    exact ⟨hr, rfl, rfl, rfl⟩
  | ok bound =>
    obtain ⟨book, changes⟩ := bound
    obtain ⟨hretention, hcap⟩ := AddressBook.windows_bind hbind
    obtain ⟨map, hfile, hm⟩ := hr.mirrored
    have hmirrored : Mirrored book (changes.foldl (BookChange.apply BookRecord.of) map) := by
      rw [Mirrored, AddressBook.refreshMs, hretention]
      exact AddressBook.mirrors_bind hm hbind
    rw [addressFor_of_ok hbind]
    refine ⟨⟨?_, fun address o ho => ?_, ?_⟩, rfl, hretention, hcap⟩
    · change book.bindings.size ≤ book.capacity
      rw [hcap]
      exact AddressBook.size_bind hcapacity hr.size hbind
    · rcases (AddressBook.ownerAt_bind hbind).1 ho with ⟨rfl, rfl⟩ | ⟨-, -, hold⟩
      · rfl
      · exact hr.owned address o hold
    · exact mirrored_journalChanges (r := { r with book }) hfile hmirrored

def read (plan : AddressPlan) (kv : Ipv6Addr × BookRecord) : Option (Ipv6Addr × O × ℕ) :=
  (Owner.fromLabel kv.2.owner).bind fun owner =>
    if plan.addressOf owner = kv.1 then some (kv.1, owner, kv.2.answeredAtMs) else none

lemma read_eq_some {plan : AddressPlan} {kv : Ipv6Addr × BookRecord} {t : ℕ} :
    read plan kv = some (address, o, t) ↔
      kv = (address, BookRecord.of o t) ∧ plan.addressOf o = address := by
  obtain ⟨k, label, t'⟩ := kv
  rw [read, Option.bind_eq_some_iff]
  constructor
  · rintro ⟨owner, howner, hread⟩
    split at hread
    · rename_i haddress
      cases hread
      have hlabel := Owner.label_fromLabel label o howner
      refine ⟨?_, haddress⟩
      rw [BookRecord.of, hlabel]
    · cases hread
  · rintro ⟨heq, haddress⟩
    cases heq
    refine ⟨o, Owner.fromLabel_label o, ?_⟩
    rw [if_pos haddress]

lemma mem_read (hm : Mirrored r.book map)
    (howned : ∀ address o, r.book.ownerAt address = some o → r.plan.addressOf o = address)
    (address : Ipv6Addr) (o : O) (t : ℕ) :
    (address, o, t) ∈ map.entries.filterMap (read r.plan) ↔
      ∃ h, r.book.held address = some h ∧ h.value = o ∧
        map.get? (id address) = some (BookRecord.of o t) := by
  rw [List.mem_filterMap]
  constructor
  · rintro ⟨kv, hmem, hread⟩
    obtain ⟨rfl, -⟩ := read_eq_some.1 hread
    have hget := (BTreeMap.mem_entries map).1 hmem
    obtain ⟨h, hh, t', hrecord, -⟩ := hm.of_get? (k := address) hget
    have hlabel : Owner.label h.value = Owner.label o :=
      (congrArg BookRecord.owner hrecord).symm
    exact ⟨h, hh, label_injective hlabel, hget⟩
  · rintro ⟨h, hh, rfl, hget⟩
    have howner : r.book.ownerAt address = some h.value := by
      rw [AddressBook.ownerAt_eq, hh]
      rfl
    exact ⟨_, (BTreeMap.mem_entries map).2 hget,
      read_eq_some.2 ⟨rfl, howned address h.value howner⟩⟩

/-- A journal opens to the book it mirrors, at most the lag behind. -/
lemma Good.open_ (hr : r.Good json) : ∃ r',
    AddressRegistry.open_ json r.plan r.book.retentionMs r.book.capacity r.file = .ok r' ∧
      r'.Good json ∧ r'.plan = r.plan ∧ r'.book.retentionMs = r.book.retentionMs ∧
      r'.book.capacity = r.book.capacity ∧
      ∀ address, r'.book.ownerAt address = r.book.ownerAt address := by
  obtain ⟨map, hfile, hm⟩ := hr.mirrored
  obtain ⟨journal, hopen⟩ := hfile.open_ (by decide)
  have hmem := mem_read hm hr.owned
  obtain ⟨l, hl⟩ : ∃ l : List (Ipv6Addr × O × ℕ), l = map.entries.filterMap (read r.plan) :=
    ⟨_, rfl⟩
  rw [← hl] at hmem
  have hnodup : (l.map Prod.fst).Nodup := by
    rw [hl]
    refine nodup_read id map fun kv b hread => ?_
    obtain ⟨rfl, -⟩ := read_eq_some.1 hread
    rfl
  have hlen : l.length ≤ r.book.capacity := by
    have hheld : ∀ k ∈ l.map Prod.fst, r.book.bindings.get? k ≠ none := by
      intro k hk
      obtain ⟨⟨address, o, t⟩, hmemr, rfl⟩ := List.mem_map.1 hk
      obtain ⟨h, hh, -⟩ := (hmem address o t).1 hmemr
      rw [AddressBook.binding_of_held hh]
      exact Option.some_ne_none _
    have hle := length_le_size hnodup hheld
    rw [List.length_map] at hle
    exact hle.trans hr.size
  have hrestored : ∀ k h, (AddressBook.restore r.book.retentionMs r.book.capacity l).held k =
      some h ↔ ∃ o t, (k, o, t) ∈ l ∧ h = ⟨o, t, t⟩ := fun k h =>
    AddressBook.held_restore hnodup hlen r.book.retentionMs
  have hreloaded := reloaded_of_list hm hrestored hmem
  have howner : ∀ address, (AddressBook.restore r.book.retentionMs r.book.capacity l).ownerAt
      address = r.book.ownerAt address := by
    intro address
    rw [AddressBook.ownerAt_eq, AddressBook.ownerAt_eq]
    cases hheld : r.book.held address with
    | none => rw [hreloaded.none address hheld]
    | some h =>
      obtain ⟨t, -, heq, -, -⟩ := hreloaded.some address h hheld
      rw [heq]
      rfl
  refine ⟨⟨r.plan, AddressBook.restore r.book.retentionMs r.book.capacity l, journal, r.file⟩,
    ?_, ⟨?_, fun address o ho => ?_, map, hfile, hm.reload hreloaded⟩, rfl, rfl, rfl, howner⟩
  · rw [AddressRegistry.open_, hopen, hl]
    rfl
  · exact AddressBook.size_restore hlen _
  · rw [howner] at ho
    exact hr.owned address o ho

end AddressRegistry

end Rings.DnsRelay
