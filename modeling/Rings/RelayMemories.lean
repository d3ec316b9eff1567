import Rings.AddressBook
import Rings.AnnouncementMemory
import Rings.DnsJournal

/-!
The relay's two memories kept in its state directory: what owners announce, and which address
belongs to whom.

Each is kept in memory and journaled by the changes its calls return; a journal that has outgrown
its memory is compacted to a snapshot of it. A restart opens both journals and restores the
memories from them.
-/

namespace Rings.DnsRelay

open Lagged

structure MemoryRecord where
  ports : List (Port × ProxyProtocol)
  txt : List (List Char × List (List Char))
  seenAtMs : ℕ

/-- The record of `announcement`. -/
def MemoryRecord.of (announcement : Announcement) (seenAtMs : ℕ) : MemoryRecord where
  ports := announcement.servedPorts
  txt := announcement.txtRecords.map fun r => (r.1.asStr, r.2.map TxtValue.asStr)
  seenAtMs := seenAtMs

/-- One name of a record and its values, validated. -/
def MemoryRecord.txtPart (r : List Char × List (List Char)) :
    Except AnnouncementError (SubName × List TxtValue) :=
  match r.2.mapM TxtValue.new with
  | .error error => .error error
  | .ok values =>
    match SubName.new r.1 with
    | .error error => .error error
    | .ok name => .ok (name, values)

def MemoryRecord.intoParts (r : MemoryRecord) : Option (Announcement × ℕ) :=
  match r.txt.mapM txtPart with
  | .error _ => none
  | .ok txt =>
    match Announcement.new r.ports txt with
    | .error _ => none
    | .ok announcement => some (announcement, r.seenAtMs)

structure BookRecord where
  owner : List Char
  answeredAtMs : ℕ

variable {O E : Type*} [Owner O]

def BookRecord.of (owner : O) (answeredAtMs : ℕ) : BookRecord := ⟨Owner.label owner, answeredAtMs⟩

/-! ### The memory of announcements on disk -/

/-- The memory, its journal, and the file `announcements.jsonl`. -/
structure Recall (O : Type*) [Owner O] where
  memory : AnnouncementMemory O
  journal : Journal
  file : Option ByteArray

namespace Recall

variable (json : Json (List Char) MemoryRecord)

def open_ (windows : MemoryWindows) (capacity : ℕ) (file : Option ByteArray) :
    Except StateError (Recall O) :=
  match Journal.open_ json file with
  | .error error => .error error
  | .ok (journal, records) =>
    let remembered := records.entries.filterMap fun kv =>
      (Owner.fromLabel kv.1).bind fun owner =>
        kv.2.intoParts.map fun parts => (owner, parts.1, parts.2)
    .ok ⟨AnnouncementMemory.restore windows capacity remembered, journal, file⟩

def journalChange (s : Option ByteArray × Journal) : MemoryChange O → Option ByteArray × Journal
  | .keep owner announcement seenAtMs =>
    Journal.put json s.1 s.2 (Owner.label owner) (MemoryRecord.of announcement seenAtMs)
  | .forget owner => Journal.remove json s.1 s.2 (Owner.label owner)

/-- The snapshot a compaction writes. -/
def snapshot (memory : AnnouncementMemory O) : BTreeMap (List Char) MemoryRecord :=
  ofEntries (memory.remembered.map fun r => (Owner.label r.1, MemoryRecord.of r.2.1 r.2.2))

def journalChanges (r : Recall O) (changes : List (MemoryChange O)) : Recall O :=
  let written := changes.foldl (journalChange json) (r.file, r.journal)
  let left := if written.2.needsCompaction r.memory.remembered.length then
      Journal.compact json (snapshot r.memory).entries
    else written
  { r with file := left.1, journal := left.2 }

def observe (r : Recall O) (owner : O) (observed : Except E (Option Announcement)) (nowMs : ℕ) :
    Recall O × Observation O E :=
  let left := r.memory.observe owner observed nowMs
  (({ r with memory := left.1 } : Recall O).journalChanges json left.2.changes, left.2)

end Recall

/-! ### The address registry -/

/-- The address map with its book, and the file `address-book.jsonl`. -/
structure AddressRegistry (O : Type*) [Owner O] where
  plan : AddressPlan
  book : AddressBook O
  journal : Journal
  file : Option ByteArray

namespace AddressRegistry

variable (json : Json Ipv6Addr BookRecord)

/-- Open the registry and replay its book: a binding whose label names no owner, or whose address
is not the owner's, is dropped. -/
def open_ (plan : AddressPlan) (retentionMs capacity : ℕ) (file : Option ByteArray) :
    Except StateError (AddressRegistry O) :=
  match Journal.open_ json file with
  | .error error => .error error
  | .ok (journal, records) =>
    let bindings := records.entries.filterMap fun kv =>
      (Owner.fromLabel kv.2.owner).bind fun owner =>
        if plan.addressOf owner = kv.1 then some (kv.1, owner, kv.2.answeredAtMs) else none
    .ok ⟨plan, AddressBook.restore retentionMs capacity bindings, journal, file⟩

/-- Journal a change. -/
def journalChange (s : Option ByteArray × Journal) : BookChange O → Option ByteArray × Journal
  | .bind address owner answeredAtMs =>
    Journal.put json s.1 s.2 address (BookRecord.of owner answeredAtMs)
  | .unbind address => Journal.remove json s.1 s.2 address

/-- The snapshot a compaction writes. -/
def snapshot (book : AddressBook O) : BTreeMap Ipv6Addr BookRecord :=
  ofEntries (book.entries.map fun b => (b.1, BookRecord.of b.2.1 b.2.2))

def journalChanges (r : AddressRegistry O) (changes : List (BookChange O)) : AddressRegistry O :=
  let written := changes.foldl (journalChange json) (r.file, r.journal)
  let left := if written.2.needsCompaction r.book.len then
      Journal.compact json (snapshot r.book).entries
    else written
  { r with file := left.1, journal := left.2 }

/-- The address of `owner`, bound in the book as answered now. -/
def addressFor (r : AddressRegistry O) (owner : O) (nowMs : ℕ) :
    AddressRegistry O × Except AddressCollision Ipv6Addr :=
  let address := r.plan.addressOf owner
  match r.book.bind address owner nowMs with
  | .error error => (r, .error error)
  | .ok (book, changes) =>
    (({ r with book } : AddressRegistry O).journalChanges json changes, .ok address)

end AddressRegistry

/-! ### Runs of the relay -/

structure Relay (O : Type*) [Owner O] where
  announcements : Recall O
  addresses : AddressRegistry O

/-- A call of the relay, or a restart of it. -/
inductive Step (O E : Type*)
  | observe (owner : O) (observed : Except E (Option Announcement)) (nowMs : ℕ)
  | bind (owner : O) (nowMs : ℕ)
  | restart

/-- The configuration of a relay. -/
structure Config where
  windows : MemoryWindows
  maxOwners : ℕ
  plan : AddressPlan
  retentionMs : ℕ
  maxBindings : ℕ

namespace Relay

variable (json : Json (List Char) MemoryRecord) (bookJson : Json Ipv6Addr BookRecord)

def new (config : Config) : Relay O where
  announcements := ⟨AnnouncementMemory.new config.windows config.maxOwners, ⟨0⟩, none⟩
  addresses := ⟨config.plan, AddressBook.new config.retentionMs config.maxBindings, ⟨0⟩, none⟩

/-- A restart opens both journals; a relay that cannot does not run. -/
def restart (r : Relay O) : Relay O :=
  match Recall.open_ json r.announcements.memory.windows r.announcements.memory.capacity
      r.announcements.file,
    AddressRegistry.open_ bookJson r.addresses.plan r.addresses.book.retentionMs
      r.addresses.book.capacity r.addresses.file with
  | .ok announcements, .ok addresses => ⟨announcements, addresses⟩
  | _, _ => r

def step (r : Relay O) : Step O E → Relay O
  | .observe owner observed nowMs =>
    { r with announcements := (r.announcements.observe json owner observed nowMs).1 }
  | .bind owner nowMs => { r with addresses := (r.addresses.addressFor bookJson owner nowMs).1 }
  | .restart => r.restart json bookJson

def run (r : Relay O) (steps : List (Step O E)) : Relay O := steps.foldl (step json bookJson) r

end Relay

/-- The clocks of the calls do not go back. -/
def Timed : ℕ → List (Step O E) → Prop
  | _, [] => True
  | clock, .observe _ _ nowMs :: steps | clock, .bind _ nowMs :: steps =>
    clock ≤ nowMs ∧ Timed nowMs steps
  | clock, .restart :: steps => Timed clock steps

end Rings.DnsRelay
