import Rings.Version
import Rings.BTreeMap
import Rings.Newest
import Rings.Effect

/-!
Storage entries and the element set they carry.

An entry lists its elements with their dots, its covering removes and an optional reset
register. Read as a topic buffer it is two maps, joined pointwise by the greater dot and
normalized by dropping what the register or a covering remove shadows; written back it is
sorted by dot and truncated to the caps of its kind. What the code computes outside this
model (the hash of an element, the digest of an operation, the hold instant of a relay
element) is the parameter `codec`.
-/

namespace Rings

abbrev Bytes := List (Fin 256)

instance neZero_byte : NeZero 256 := ⟨by decide⟩

/-- The content address of an element, ordered as its 32 bytes. -/
@[ext]
structure ElementDigest where
  word : BitVec 256
deriving DecidableEq

namespace ElementDigest

def key (e : ElementDigest) : ℕ := e.word.toNat

lemma key_injective : Function.Injective key := fun _ _ h =>
  ElementDigest.ext (BitVec.eq_of_toNat_eq h)

instance : LinearOrder ElementDigest := LinearOrder.lift' key key_injective

end ElementDigest

/-- A covering remove: every add of the payload at or below `dot`. -/
structure EntryTombstone where
  element : ElementDigest
  dot : EntryDot
deriving DecidableEq

structure EntryCrdt where
  register : Option EntryVersion
  dots : List EntryDot
  tombstones : List EntryTombstone
deriving DecidableEq

namespace EntryCrdt

/-- `EntryCrdt::default`. -/
def empty : EntryCrdt := ⟨none, [], []⟩

def hasWriteWitness (c : EntryCrdt) : Bool := c.register.isSome || !c.dots.isEmpty

/-- The floor that lifts a payload without dots. -/
def legacyFloor (c : EntryCrdt) : EntryVersion := c.register.getD .zero

end EntryCrdt

/-! ### Kinds and their bounds -/

def defaultTtlMs : ℕ := 600 * 1000
def maxTtlMs : ℕ := defaultTtlMs * 10
def defaultRelayInboxTtlMs : ℕ := 24 * 3600 * 1000
def maxRelayInboxTtlMs : ℕ := defaultRelayInboxTtlMs * 7
def tsOffsetToleranceMs : ℕ := 3000
def entryDataMaxLen : ℕ := 1024
def relayInboxMaxLen : ℕ := 64
def dataTombstoneMaxLen : ℕ := entryDataMaxLen
def entryPayloadMaxBytes : ℕ := 32 * 1024

inductive EntryKind where
  | data
  | relayMessage
deriving DecidableEq

/-- How a carrier bounds its removes: by refusing a write, or by keeping the newest. -/
inductive TombstoneBound where
  | refuse (bound : ℕ)
  | truncate (cap : ℕ)

/-- How many of `count` removes, oldest first, materialization drops. -/
def TombstoneBound.truncated : TombstoneBound → ℕ → ℕ
  | .refuse _, _ => 0
  | .truncate cap, count => count - cap

namespace EntryKind

def maxDataLen : EntryKind → ℕ
  | .data => entryDataMaxLen
  | .relayMessage => relayInboxMaxLen

def isRelayInbox : EntryKind → Bool
  | .data => false
  | .relayMessage => true

def tombstoneBound : EntryKind → TombstoneBound
  | .data => .refuse dataTombstoneMaxLen
  | .relayMessage => .truncate relayInboxMaxLen

def defaultLifetimeMs : EntryKind → ℕ
  | .data => defaultTtlMs
  | .relayMessage => defaultRelayInboxTtlMs

def maxLifetimeMs : EntryKind → ℕ
  | .data => maxTtlMs
  | .relayMessage => maxRelayInboxTtlMs

/-- The dot horizon, of a kind that has one. -/
def elementHorizonMs : EntryKind → Option ℕ
  | .data => some (maxLifetimeMs .data)
  | .relayMessage => none

end EntryKind

/-- What an entry reads of code outside the model. -/
structure Codec where
  /-- The digest of one element. -/
  digest : Bytes → ElementDigest
  /-- The digest of an operation's kind, key and payload. -/
  operationDigest : EntryKind → Did → List Bytes → Except EntryError Did
  /-- The signed hold instant of an element that decodes to a held message. -/
  heldAtMs : Bytes → Option ℕ

/-- A codec for fixed inputs: an element's digest is its bytes read as a number, every operation
has one digest, and no element is a held message. -/
def plainCodec : Codec where
  digest v := ⟨BitVec.ofNat 256 (v.foldl (fun n b => 257 * n + b + 1) 0)⟩
  operationDigest _ _ _ := .ok 7
  heldAtMs _ := none

variable (codec : Codec)

/-! ### The topic buffer -/

@[ext]
structure DataTopicBuffer where
  register : Option EntryVersion
  values : BTreeMap Bytes EntryDot
  removes : BTreeMap ElementDigest EntryDot

namespace DataTopicBuffer

/-- Whether a remove covers the add `(value, dot)`. -/
def coveredBy (removes : BTreeMap ElementDigest EntryDot) (value : Bytes) (dot : EntryDot) :
    Bool :=
  !removes.entries.isEmpty && (removes.get? (codec.digest value)).any (dot ≤ ·)

/-- Whether `register` leaves a dot standing. -/
def atOrAfter (register : Option EntryVersion) (dot : EntryDot) : Bool :=
  register.all (· ≤ dot.version)

/-- `DataTopicBuffer::new`: drop what the reset floor or a covering remove shadows. -/
def new (register : Option EntryVersion) (values : BTreeMap Bytes EntryDot)
    (removes : BTreeMap ElementDigest EntryDot) : DataTopicBuffer :=
  let values := values.retain fun _ dot => atOrAfter register dot
  let removes := removes.retain fun _ dot => atOrAfter register dot
  { register, values := values.retain fun value dot => !coveredBy codec removes value dot,
    removes }

/-- Record a covering remove for `value` at its held dot. -/
def remove (b : DataTopicBuffer) (value : Bytes) : DataTopicBuffer :=
  match b.values.get? value with
  | none => b
  | some dot =>
    { b with
      values := b.values.remove value
      removes := b.removes.insertMax (codec.digest value) dot }

def join (a b : DataTopicBuffer) : DataTopicBuffer :=
  new codec (max a.register b.register) (a.values.join b.values) (a.removes.join b.removes)

end DataTopicBuffer

/-! ### Entries -/

@[ext]
structure Entry where
  did : Did
  data : List Bytes
  kind : EntryKind
  crdt : EntryCrdt
  expiresAtMs : Option ℕ
deriving DecidableEq

namespace Entry

/-- `Entry::new`. -/
def new (did : Did) (data : List Bytes) (kind : EntryKind) : Entry :=
  ⟨did, data, kind, .empty, none⟩

/-- The elements with their dots. -/
def elements (e : Entry) : List (Bytes × EntryDot) := e.data.zip e.crdt.dots

/-- The removes, each with its element. -/
def removals (e : Entry) : List (ElementDigest × EntryDot) :=
  e.crdt.tombstones.map fun t => (t.element, t.dot)

/-- Every version an entry carries. -/
def versions (e : Entry) : List EntryVersion :=
  e.crdt.dots.map EntryDot.version ++ e.crdt.tombstones.map (fun t => t.dot.version) ++
    e.crdt.register.toList

def maxObservedVersion (e : Entry) : Option EntryVersion := e.versions.max?

def validateSameCarrier (e other : Entry) : Except EntryError Unit :=
  if e.kind ≠ other.kind then .error .entryKindNotEqual
  else if e.did ≠ other.did then .error .entryDidNotEqual
  else .ok ()

def dotForElement (e : Entry) (index : ℕ) : Except EntryError EntryDot :=
  match e.crdt.dots[index]? with
  | some dot => .ok dot
  | none => EntryDot.forIndex e.crdt.legacyFloor index

/-- The carrier state before normalization. -/
def rawBuffer (e : Entry) : Except EntryError DataTopicBuffer := do
  let values ← e.data.zipIdx.mapM fun (value, index) => do
    return (value, ← e.dotForElement index)
  return { register := e.crdt.register, values := .ofList values, removes := .ofList e.removals }

/-- The normalized carrier state. -/
def topicBuffer (e : Entry) : Except EntryError DataTopicBuffer := do
  let raw ← e.rawBuffer
  return .new codec raw.register raw.values raw.removes

/-- A buffer as an entry: elements and removes in dot order under the caps of the kind. -/
def materializeTopicBuffer (e : Entry) (buffer : DataTopicBuffer) (expiresAtMs : Option ℕ) :
    Entry :=
  let visible : List (EntryDot ×ₗ Bytes) := buffer.values.entries.map fun p => toLex (p.2, p.1)
  let visible := sortSkip visible (visible.length - e.kind.maxDataLen)
  let removes : List (EntryDot ×ₗ ElementDigest) :=
    buffer.removes.entries.map fun p => toLex (p.2, p.1)
  let removes := sortSkip removes (e.kind.tombstoneBound.truncated removes.length)
  { did := e.did
    data := visible.map fun p => (ofLex p).2
    kind := e.kind
    crdt :=
      { register := buffer.register
        dots := visible.map fun p => (ofLex p).1
        tombstones := removes.map fun p => ⟨(ofLex p).2, (ofLex p).1⟩ }
    expiresAtMs }

/-- The retention bound of a join: the later of the two. -/
def joinedLifetime (e other : Entry) : Option ℕ := max e.expiresAtMs other.expiresAtMs

/-- Merge two entries of one carrier. -/
def join (e other : Entry) : Except EntryError Entry := do
  e.validateSameCarrier other
  let left ← e.rawBuffer
  let right ← other.rawBuffer
  return e.materializeTopicBuffer (left.join codec right) (e.joinedLifetime other)

/-- Normalize an entry for storage. -/
def tryIntoStorageEntry (e : Entry) : Except EntryError Entry := do
  let buffer ← e.topicBuffer codec
  return e.materializeTopicBuffer buffer e.expiresAtMs

/-! ### Stamping -/

def withElementDots (e : Entry) (version : EntryVersion) : Except EntryError Entry := do
  let dots ← e.data.zipIdx.mapM fun (_, index) => EntryDot.forIndex version index
  return { e with crdt := { e.crdt with dots } }

end Entry

inductive EntryStampKind where
  | overwrite
  | delta

namespace Entry

def stamp (e : Entry) (version : EntryVersion) : EntryStampKind → Except EntryError Entry
  | .overwrite =>
    withElementDots { e with crdt := { e.crdt with register := some version } } version
  | .delta => e.withElementDots version

def operationDigest (e : Entry) : Except EntryError Did := codec.operationDigest e.kind e.did e.data

def issueVersionAfter (e : Entry) (nowMs : ℕ) (actor : Did) (floor : Option EntryVersion) :
    Except EntryError EntryVersion := do
  EntryVersion.after (.new nowMs actor (← e.operationDigest codec)) floor

/-- An entry without a write witness is stamped with a version after `floor`. -/
def ensureStampAfter (e : Entry) (nowMs : ℕ) (actor : Did) (floor : Option EntryVersion)
    (kind : EntryStampKind) : Except EntryError Entry :=
  if e.crdt.hasWriteWitness then .ok e
  else do
    let version ← e.issueVersionAfter codec nowMs actor floor
    e.stamp version kind

/-- Stamp the retention bound when the origin left it absent. -/
def ensureLifetimeFrom (e : Entry) (nowMs : ℕ) : Entry :=
  match e.expiresAtMs with
  | some _ => e
  | none => { e with expiresAtMs := some (saturatingAdd u128Max nowMs e.kind.defaultLifetimeMs) }

/-! ### Operations -/

def isDataEntry (e : Entry) : Bool := !e.kind.isRelayInbox

def overwrite (e : Entry) (nowMs : ℕ) (other : Entry) (actor : Did) : Except EntryError Entry := do
  if !e.isDataEntry then throw .entryNotOverwritable
  let stamped ← other.ensureStampAfter codec nowMs actor e.maxObservedVersion .overwrite
  e.join codec stamped

def extend (e : Entry) (nowMs : ℕ) (other : Entry) (actor : Did) : Except EntryError Entry := do
  let stamped ← other.ensureStampAfter codec nowMs actor e.maxObservedVersion .delta
  e.join codec stamped

/-- Whether a removal naming `other` removes the element `(value, dot)`. -/
def removalTargets (other : Entry) (value : Bytes) (dot : EntryDot) : Bool :=
  if other.crdt.dots.isEmpty then other.data.contains value else other.crdt.dots.contains dot

/-- Remove the elements `other` names, by covering removes at the dots held here. -/
def tombstone (e other : Entry) : Except EntryError Entry := do
  e.validateSameCarrier other
  let buffer ← e.topicBuffer codec
  let removed := (buffer.values.entries.filter fun p => other.removalTargets p.1 p.2).map Prod.fst
  let buffer := removed.foldl (DataTopicBuffer.remove codec) buffer
  return e.materializeTopicBuffer buffer e.expiresAtMs

end Entry

inductive EntryOperation where
  | overwrite (entry : Entry)
  | extend (entry : Entry)
  | tombstone (entry : Entry)

namespace EntryOperation

def entry : EntryOperation → Entry
  | .overwrite e => e
  | .extend e => e
  | .tombstone e => e

/-- The write witness an operation must carry; a removal issues none. -/
def stampKind : EntryOperation → Option EntryStampKind
  | .overwrite _ => some .overwrite
  | .extend _ => some .delta
  | .tombstone _ => none

def tryMapEntry (op : EntryOperation) (f : Entry → Except EntryError Entry) :
    Except EntryError EntryOperation :=
  match op with
  | .overwrite e => return .overwrite (← f e)
  | .extend e => return .extend (← f e)
  | .tombstone e => return .tombstone (← f e)

/-- The operation with its versions issued after `floor` and its retention bound set. -/
def stampedAfter (op : EntryOperation) (nowMs : ℕ) (actor : Did) (floor : Option EntryVersion) :
    Except EntryError EntryOperation :=
  op.tryMapEntry fun e =>
    let e := e.ensureLifetimeFrom nowMs
    match op.stampKind with
    | some kind => e.ensureStampAfter codec nowMs actor floor kind
    | none => .ok e

/-- The empty carrier an operation creates when none is there. -/
def genDefaultEntry (op : EntryOperation) : Entry := .new op.entry.did [] op.entry.kind

end EntryOperation

/-- `Entry::operate`. -/
def Entry.operate (e : Entry) (nowMs : ℕ) (op : EntryOperation) (actor : Did) :
    Except EntryError Entry :=
  match op with
  | .overwrite other => e.overwrite codec nowMs other actor
  | .extend other => e.extend codec nowMs other actor
  | .tombstone other => e.tombstone codec other

end Rings
