import Rings.Effect
import Rings.Entry
import Rings.OriginQuota
import Rings.SlotItems

/-!
The replay tables and the records that persist them.

A sender stream keeps how far it has issued sequences and how far its stored lease covers them.
A receiver stream keeps its window, the relay deliveries it holds in custody, and its charge: the
principal that introduced it and the instant it is spent. Each stream is one record, and a restart
reads the tables back from the records.
-/

namespace Rings

/-! ### Sender leases -/

def transactionSequenceLease : ℕ := 64

/-- The last sequence a sender stream issued, and the last its stored lease covers. -/
structure SenderLease where
  issued : ℕ
  leased : ℕ
deriving DecidableEq

/-- The whole of a stored lease counts as issued. -/
def SenderLease.restored (leased : ℕ) : SenderLease := ⟨leased, leased⟩

/-- The first and last sequence handed out, the allocator after it, and the lease to store. -/
structure Allocation where
  range : ℕ × ℕ
  next : SenderLease
  extend : Option ℕ
deriving DecidableEq

/-- The first sequence after `previous`; nothing past `u64`. -/
def firstAfter : Option SenderLease → Option ℕ
  | some lease => checkedAdd u64Max lease.issued 1
  | none => some 0

/-- Hands out `first` to `last`, within the lease of `previous` or extending it. -/
def allocateRange (previous : Option SenderLease) (first last : ℕ) : Allocation :=
  let leased := max last (saturatingAdd u64Max first (transactionSequenceLease - 1))
  match previous with
  | some lease =>
    if last ≤ lease.leased then ⟨(first, last), ⟨last, lease.leased⟩, none⟩
    else ⟨(first, last), ⟨last, leased⟩, some leased⟩
  | none => ⟨(first, last), ⟨last, leased⟩, some leased⟩

/-- Allocates `count` sequences after `previous`; nothing when the range would wrap `u64`. -/
def allocate (previous : Option SenderLease) (count : ℕ+) : Option Allocation :=
  (firstAfter previous).bind fun first =>
    (checkedAdd u64Max first (count - 1)).map (allocateRange previous first)

/-! ### Deliveries and charges -/

structure RelayDelivery where
  sequence : ℕ
  digest : TransactionDigest
  spentAtMs : ℕ
deriving DecidableEq

def RelayDelivery.isSpentAt (d : RelayDelivery) (nowMs : ℕ) : Bool := decide (d.spentAtMs ≤ nowMs)

abbrev RelayCustody := Finset RelayDelivery

/-- Most relay deliveries in custody over the whole store. -/
def relayCustodyCapacity : ℕ := 64

/-- How long after its proof expires a transaction of a class may still be delivered. -/
def deliveryHorizonMs : MessageCategory → ℕ
  | .application => saturatingAdd u128Max maxRelayInboxTtlMs tsOffsetToleranceMs
  | .dhtControl | .storage | .e2e => 0

/-- The instant a receiver stream holding such a transaction may be spent. -/
def spentAt (category : MessageCategory) (tsMs ttlMs : ℕ) : ℕ :=
  saturatingAdd u128Max (saturatingAdd u128Max (saturatingAdd u128Max tsMs ttlMs)
    (deliveryHorizonMs category)) tsOffsetToleranceMs

/-- The principal that introduced a receiver stream, and the instant it is spent. -/
structure StreamCharge where
  introducer : Principal
  spentAtMs : ℕ
deriving DecidableEq

/-! ### Records -/

inductive ReplayTable where
  | sender
  | receiver
deriving DecidableEq

def ReplayTable.index : ReplayTable → ℕ
  | sender => 0
  | receiver => 1

/-- The storage key of a stream's record: the table and the encoded stream. -/
@[ext]
structure RecordKey where
  table : ReplayTable
  key : StreamKey

namespace RecordKey

def rank (k : RecordKey) : ℕ ×ₗ StreamKey := toLex (k.table.index, k.key)

lemma rank_injective : Function.Injective rank := by
  rintro ⟨t, k⟩ ⟨u, l⟩ h
  obtain ⟨ht, rfl⟩ := Prod.mk.inj (toLex.injective h)
  cases t <;> cases u <;> first | rfl | cases ht

instance linearOrder : LinearOrder RecordKey := LinearOrder.lift' rank rank_injective

end RecordKey

inductive StoredStream where
  | sender (key : StreamKey) (leased : ℕ)
  | receiver (key : StreamKey) (state : SequenceState) (custody : RelayCustody)
      (charge : StreamCharge)
deriving DecidableEq

/-- The storage key a record is written under. -/
def StoredStream.recordKey : StoredStream → RecordKey
  | sender key _ => ⟨.sender, key⟩
  | receiver key _ _ _ => ⟨.receiver, key⟩

inductive ReplayError where
  | streamUnavailable (key : StreamKey) (record : RecordKey)
  | streamCapacityExceeded (introducer : Principal) (refusal : ShareRefusal)
  | sequenceExhausted (key : StreamKey)
  | transactionReplay (key : StreamKey) (sequence : ℕ)
  | sequenceFork (key : StreamKey) (sequence : ℕ) (accepted incoming : TransactionDigest)
  | sequenceStale (key : StreamKey) (sequence retainedMin : ℕ)
  | quota (key : OriginQuotaKey) (byteCost : ℕ) (error : OriginQuotaAdmissionError)
  | relayCustodyFull (capacity : ℕ)
  | stateInvalid
  /-- The batch a transition joined failed. -/
  | persistence
  /-- No runtime ran the transition, or it ended without publishing its result. -/
  | unscheduled
deriving DecidableEq

/-! ### Tables -/

@[ext]
structure ReplayTables where
  sender : BTreeMap StreamKey SenderLease
  receiver : BTreeMap StreamKey SequenceState
  /-- Only for streams that hold any. -/
  custody : BTreeMap StreamKey RelayCustody
  charges : BTreeMap StreamKey StreamCharge
  /-- The receiver streams by the instant they are spent. -/
  spent : BTreeMap (ℕ ×ₗ StreamKey) Unit

namespace ReplayTables

def empty : ReplayTables := ⟨.empty, .empty, .empty, .empty, .empty⟩

/-- Sets the charge of a stream, with the spent index; the accounting follows in
`Speculative.setCharge`. -/
def setCharge (t : ReplayTables) (key : StreamKey) (next : Option StreamCharge) : ReplayTables :=
  let spent := (t.charges.get? key).elim t.spent fun previous =>
    t.spent.remove (toLex (previous.spentAtMs, key))
  { t with
    charges := t.charges.replace key next
    spent := next.elim spent fun charge => spent.insert (toLex (charge.spentAtMs, key)) () }

/-- The receiver streams spent at `nowMs`. -/
def spentStreams (t : ReplayTables) (nowMs : ℕ) : List StreamKey :=
  (t.spent.entries.takeWhile fun e => (ofLex e.1).1 ≤ nowMs).map fun e => (ofLex e.1).2

/-- The record of a receiver stream as the tables hold it. -/
def receiverRecord (t : ReplayTables) (key : StreamKey) : Except ReplayError StoredStream :=
  match t.receiver.get? key, t.charges.get? key with
  | some state, some charge => .ok (.receiver key state ((t.custody.get? key).getD ∅) charge)
  | _, _ => .error .stateInvalid

end ReplayTables

/-- The accounting with one charge replaced by another. -/
def SlotAccounting.recharge (s : SlotAccounting) (previous next : Option StreamCharge) :
    SlotAccounting :=
  let s := previous.elim s fun c => s.discharge c.introducer c.spentAtMs
  next.elim s fun c => s.charge c.introducer c.spentAtMs

/-! ### Restoring -/

inductive Defect where
  | notAStream
  | invalidWindow
deriving DecidableEq

inductive RestoreFailure where
  | undecodable
  | missing
  | defective (key : RecordKey) (defect : Defect)
deriving DecidableEq

inductive ScannedRecord where
  | filed (key : RecordKey) (value : Option StoredStream)
  | undecodable (name : RecordKey)
  | missing (name : RecordKey)

@[ext]
structure ReplayStore where
  tables : ReplayTables
  unrestorable : BTreeMap RecordKey RestoreFailure

/-- Streams of either table one runtime retains. -/
def transactionReplayStreamCapacity : ℕ := MessageCategory.count * 4096

namespace ReplayStore

def empty : ReplayStore := ⟨.empty, .empty⟩

/-- The record name of a stream that fails closed. -/
def unavailableRecord (s : ReplayStore) (table : ReplayTable) (key : StreamKey) :
    Option RecordKey :=
  if (s.unrestorable.get? ⟨table, key⟩).isSome then some ⟨table, key⟩ else none

/-- Whether a table may open one more stream. -/
def admitsNewStream (s : ReplayStore) (table : ReplayTable) : Except ShareRefusal Unit :=
  let streams := match table with
    | .sender => s.tables.sender.entries.length
    | .receiver => s.tables.receiver.entries.length
  let held := saturatingAdd usizeMax streams s.unrestorable.entries.length
  if held < transactionReplayStreamCapacity then .ok ()
  else .error (.tableFull held transactionReplayStreamCapacity)

def restoreRecord (s : ReplayStore) : ScannedRecord → ReplayStore
  | .filed _ (some (.sender key leased)) =>
    { s with tables := { s.tables with
        sender := s.tables.sender.insert key (.restored leased) } }
  | .filed name (some (.receiver key state custody charge)) =>
    if state.isValid then
      { s with tables := { s.tables with
          receiver := s.tables.receiver.insert key state
          custody := if custody = ∅ then s.tables.custody
            else s.tables.custody.insert key custody
          charges := s.tables.charges.insert key charge
          spent := s.tables.spent.insert (toLex (charge.spentAtMs, key)) () } }
    else { s with
      unrestorable := s.unrestorable.insert name (.defective name .invalidWindow) }
  | .filed name none =>
    { s with unrestorable := s.unrestorable.insert name (.defective name .notAStream) }
  | .undecodable name => { s with unrestorable := s.unrestorable.insert name .undecodable }
  | .missing name => { s with unrestorable := s.unrestorable.insert name .missing }

def restore (records : List ScannedRecord) : ReplayStore := records.foldl restoreRecord .empty

end ReplayStore

/-- The records of a store, as a scan reports them. -/
def scan (disk : BTreeMap RecordKey StoredStream) : List ScannedRecord :=
  disk.entries.map fun kv => .filed kv.1 (some kv.2)

end Rings
