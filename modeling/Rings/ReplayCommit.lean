import Rings.ReplayStore

/-!
Group commit of replay transitions.

A transition runs whole on the speculative tables: it applies its effect at once, logs the
inverse of each change, stages its records and joins the open batch. A flusher writes one batch
at a time. A durable batch releases its members; a failed one undoes the open batch and then its
own, last change first, and fails the members of both. A crash leaves the disk alone, with any of
the records being written landed.
-/

namespace Rings

open Effect

/-! ### Undo logs -/

/-- The state an undo acts on: the store, the quotas and the receiver accounting. -/
@[ext]
structure Speculative where
  store : ReplayStore
  quota : OriginQuotaTable
  accounting : SlotAccounting

inductive Undo where
  | sender (key : StreamKey) (previous : Option SenderLease)
  | receiver (key : StreamKey) (previous : Option SequenceState)
  | custody (key : StreamKey) (previous : Option RelayCustody)
  | charge (key : StreamKey) (previous : Option StreamCharge)
  | quota (reservation : OriginQuotaReservation)

namespace Speculative

def tables (s : Speculative) : ReplayTables := s.store.tables

def withTables (s : Speculative) (t : ReplayTables) : Speculative :=
  { s with store := { s.store with tables := t } }

/-- Sets the charge of a receiver stream, with the spent index and the accounting. -/
def setCharge (s : Speculative) (key : StreamKey) (next : Option StreamCharge) : Speculative :=
  { s.withTables (s.tables.setCharge key next) with
    accounting := s.accounting.recharge (s.tables.charges.get? key) next }

end Speculative

namespace Undo

def apply : Undo → Speculative → Speculative
  | sender key previous, s =>
    s.withTables { s.tables with sender := s.tables.sender.replace key previous }
  | receiver key previous, s =>
    s.withTables { s.tables with receiver := s.tables.receiver.replace key previous }
  | custody key previous, s =>
    s.withTables { s.tables with custody := s.tables.custody.replace key previous }
  | charge key previous, s => s.setCharge key previous
  | quota reservation, s => { s with quota := reservation.rollback s.quota }

/-- What puts back what a change of the tables replaces. -/
def inverse (s : Speculative) : Undo → Undo
  | sender key _ => sender key (s.tables.sender.get? key)
  | receiver key _ => receiver key (s.tables.receiver.get? key)
  | custody key _ => custody key (s.tables.custody.get? key)
  | charge key _ => charge key (s.tables.charges.get? key)
  | quota reservation => quota reservation

end Undo

def rewind (log : List Undo) (s : Speculative) : Speculative := log.foldr Undo.apply s

/-- The effect of one transition: the state, the inverses of its changes in order, and the
records it writes or removes. -/
structure Ledger where
  state : Speculative
  undo : List Undo
  records : BTreeMap RecordKey (Option StoredStream)

namespace Ledger

def new (s : Speculative) : Ledger := ⟨s, [], .empty⟩

def tables (l : Ledger) : ReplayTables := l.state.tables

/-- A change of the tables, logged with its inverse. -/
def change (l : Ledger) (u : Undo) : Ledger :=
  { l with state := u.apply l.state, undo := l.undo ++ [u.inverse l.state] }

def setSender (l : Ledger) (key : StreamKey) (lease : SenderLease) : Ledger :=
  l.change (.sender key (some lease))

def setReceiver (l : Ledger) (key : StreamKey) (window : SequenceState) : Ledger :=
  l.change (.receiver key (some window))

def setCustody (l : Ledger) (key : StreamKey) (custody : RelayCustody) : Ledger :=
  l.change (.custody key (if custody = ∅ then none else some custody))

def setCharge (l : Ledger) (key : StreamKey) (charge : StreamCharge) : Ledger :=
  l.change (.charge key (some charge))

/-- Forgets a spent stream, and stages the removal of its record. -/
def retire (l : Ledger) (key : StreamKey) : Ledger :=
  let l := (l.change (.receiver key none)).change (.charge key none)
  { l with records := l.records.insert ⟨.receiver, key⟩ none }

def charged (l : Ledger) (reservation : OriginQuotaReservation) : Ledger :=
  { l with undo := l.undo ++ [.quota reservation] }

def write (l : Ledger) (record : StoredStream) : Ledger :=
  { l with records := l.records.insert record.recordKey (some record) }

def abandon (l : Ledger) : Ledger := ⟨rewind l.undo l.state, [], .empty⟩

end Ledger

/-- A step of a transition. -/
abbrev LedgerM := Effect Ledger ReplayError

/-! ### Transitions -/

structure OriginQuotaCharge where
  lane : MessageCategory
  messageLimit : MessageLimit

structure Admission where
  key : StreamKey
  sequence : ℕ
  digest : TransactionDigest
  charge : OriginQuotaCharge
  byteCost : ℕ
  introducer : Principal
  spentAtMs : ℕ

/-- The relay delivery of a transaction. -/
def Admission.delivery (a : Admission) : RelayDelivery := ⟨a.sequence, a.digest, a.spentAtMs⟩

/-- One reading of the replay clock: the monotonic quota instant and the wall clock. -/
structure ReplayInstant where
  quota : ℕ
  wallMs : ℕ

namespace Replay

def refuseUnavailable (table : ReplayTable) (key : StreamKey) : LedgerM Unit := do
  match (← get).state.store.unavailableRecord table key with
  | none => pure ()
  | some record => throw (.streamUnavailable key record)

/-- A new stream opens only within the bounds of its table. -/
def openStream (fresh : Bool) (introducer : Principal) (bounds : Except ShareRefusal Unit) :
    LedgerM Unit :=
  match fresh, bounds with
  | true, .error refusal => throw (.streamCapacityExceeded introducer refusal)
  | _, _ => pure ()

/-- The reservation of `count` sender sequences. -/
def allocateIn (key : StreamKey) (count : ℕ+) : LedgerM (ℕ × ℕ) := do
  refuseUnavailable .sender key
  let l ← get
  let previous := l.tables.sender.get? key
  openStream previous.isNone .localNode (l.state.store.admitsNewStream .sender)
  match allocate previous count with
  | none => throw (.sequenceExhausted key)
  | some allocation => do
    modify fun l => allocation.extend.elim l fun leased => l.write (.sender key leased)
    modify (·.setSender key allocation.next)
    return allocation.range

def refuseRejected (key : StreamKey) (sequence : ℕ) : SequenceVerdict → LedgerM Unit
  | .first | .advance | .late => pure ()
  | .replay => throw (.transactionReplay key sequence)
  | .fork accepted incoming => throw (.sequenceFork key sequence accepted incoming)
  | .stale retainedMin => throw (.sequenceStale key sequence retainedMin)

def quotaKey (key : StreamKey) (charge : OriginQuotaCharge) : OriginQuotaKey :=
  { key with category := charge.lane }

/-- Charges the origin's quota, logging the reservation. -/
def reserveQuota (admission : Admission) (now : ReplayInstant) : LedgerM Unit := do
  let l ← get
  let key := quotaKey admission.key admission.charge
  match l.state.quota.reserve key admission.charge.messageLimit admission.byteCost now.quota with
  | (.ok reservation, quota) =>
    set (Ledger.charged { l with state := { l.state with quota } } reservation)
  | (.error e, quota) =>
    set { l with state := { l.state with quota } }
    throw (.quota key admission.byteCost e)

/-- Stages the record of a receiver stream as the tables hold it. -/
def writeReceiver (key : StreamKey) : LedgerM Unit := do
  match (← get).tables.receiverRecord key with
  | .ok record => modify (·.write record)
  | .error e => throw e

def rewriteCustody (key : StreamKey) (custody : RelayCustody) : LedgerM Unit := do
  modify (·.setCustody key custody)
  writeReceiver key

/-- Expires every relay delivery spent at `nowMs` from custody. -/
def expireCustody (nowMs : ℕ) : LedgerM Unit := do
  let expired := (← get).tables.custody.entries.filter fun kv =>
    decide (∃ d ∈ kv.2, d.isSpentAt nowMs = true)
  expired.forM fun kv => rewriteCustody kv.1 (kv.2.filter fun d => d.isSpentAt nowMs = false)

/-- Expires spent deliveries, then retires every stream spent at `nowMs`. -/
def retireSpent (nowMs : ℕ) : LedgerM Unit := do
  expireCustody nowMs
  let spent := (← get).tables.spentStreams nowMs
  modify fun l => spent.foldl Ledger.retire l

/-- The charge of a stream once an admission enters it. -/
def chargeAfter (held : Option StreamCharge) (admission : Admission) : StreamCharge :=
  ⟨held.elim admission.introducer StreamCharge.introducer,
    held.elim admission.spentAtMs fun held => max held.spentAtMs admission.spentAtMs⟩

/-- Classifies a transaction: its window once it is entered, and the verdict that permits it. -/
def classify (admission : Admission) : LedgerM (SequenceState × SequenceVerdict) := do
  refuseUnavailable .receiver admission.key
  let l ← get
  let previous := l.tables.receiver.get? admission.key
  openStream previous.isNone admission.introducer
    (l.state.store.admitsNewStream .receiver >>= fun _ =>
      l.state.accounting.tryAdmit admission.introducer)
  let observed := observe previous admission.sequence admission.digest
  refuseRejected admission.key admission.sequence observed.2
  return observed

/-- The custody of a stream once a relayed delivery enters it. -/
def enterCustody (key : StreamKey) (relayed : Option RelayDelivery) (l : Ledger) : Ledger :=
  relayed.elim l fun delivery =>
    l.setCustody key (insert delivery ((l.tables.custody.get? key).getD ∅))

/-- The charge of a stream, set only when it changes. -/
def enterCharge (admission : Admission) (l : Ledger) : Ledger :=
  let held := l.tables.charges.get? admission.key
  if held ≠ some (chargeAfter held admission) then
    l.setCharge admission.key (chargeAfter held admission)
  else l

/-- The admission of one transaction; a relayed one enters custody in the same record. -/
def admitIn (admission : Admission) (now : ReplayInstant) (relayed : Option RelayDelivery) :
    LedgerM SequenceVerdict := do
  let observed ← classify admission
  reserveQuota admission now
  modify (·.setReceiver admission.key observed.1)
  modify (enterCustody admission.key relayed)
  modify (enterCharge admission)
  writeReceiver admission.key
  return observed.2

def admitAt (admission : Admission) (now : ReplayInstant) : LedgerM SequenceVerdict := do
  retireSpent now.wallMs
  admitIn admission now none

inductive RelayAdmission where
  | admitted
  | inCustody
deriving DecidableEq

/-- The deliveries in custody over the whole store. -/
def custodyHeld (t : ReplayTables) : ℕ := t.custody.sumBy fun _ custody => custody.card

def admitRelayedAt (admission : Admission) (now : ReplayInstant) : LedgerM RelayAdmission := do
  retireSpent now.wallMs
  refuseUnavailable .receiver admission.key
  let t := (← get).tables
  if admission.delivery ∈ (t.custody.get? admission.key).getD ∅ then return .inCustody
  else if custodyHeld t ≥ relayCustodyCapacity then
    throw (.relayCustodyFull relayCustodyCapacity)
  else do
    let _ ← admitIn admission now (some admission.delivery)
    return .admitted

/-- Releases a relay delivery from custody; nothing when it is not there. -/
def releaseRelayed (key : StreamKey) (delivery : RelayDelivery) : LedgerM Unit := do
  match (← get).tables.custody.get? key with
  | none => return ()
  | some custody =>
    if delivery ∉ custody then return () else rewriteCustody key (custody.erase delivery)

end Replay

/-! ### Batches -/

/-- The transitions that join a batch. -/
inductive ReplayCall where
  | reserve (key : StreamKey) (count : ℕ+)
  | tryAdmit (admission : Admission) (now : ReplayInstant)
  | admitRelayed (admission : Admission) (now : ReplayInstant)
  | releaseRelayed (key : StreamKey) (delivery : RelayDelivery)

/-- The wall clock a transition reads. -/
def ReplayCall.readingMs : ReplayCall → Option ℕ
  | reserve _ _ | releaseRelayed _ _ => none
  | tryAdmit _ now | admitRelayed _ now => some now.wallMs

inductive ReplayAnswer where
  | range (first last : ℕ)
  | verdict (verdict : SequenceVerdict)
  | relay (admission : Replay.RelayAdmission)
  | released
deriving DecidableEq

def ReplayCall.body : ReplayCall → LedgerM ReplayAnswer
  | reserve key count => do
    let range ← Replay.allocateIn key count
    return .range range.1 range.2
  | tryAdmit admission now => do return .verdict (← Replay.admitAt admission now)
  | admitRelayed admission now => do return .relay (← Replay.admitRelayedAt admission now)
  | releaseRelayed key delivery => do
    Replay.releaseRelayed key delivery
    return .released

/-- Runs a body on the speculative state; one that refuses has its changes undone. -/
def ReplayCall.commit (call : ReplayCall) (s : Speculative) :
    Except ReplayError ReplayAnswer × Ledger :=
  let (result, l) := outcome call.body (.new s)
  match result with
  | .ok _ => (result, l)
  | .error _ => (result, l.abandon)

/-- A transition that waits for its batch: the step it ran at, what it staged and what it answers
once released. -/
structure Waiter where
  index : ℕ
  call : ReplayCall
  records : BTreeMap RecordKey (Option StoredStream)
  outcome : Except ReplayError ReplayAnswer

structure Batch where
  undo : List Undo
  records : BTreeMap RecordKey (Option StoredStream)
  waiters : List Waiter

def Batch.empty : Batch := ⟨[], .empty, []⟩

structure Journal where
  opened : Batch
  inFlight : Option (List Undo)

namespace Journal

def empty : Journal := ⟨.empty, none⟩

def join (j : Journal) (l : Ledger) (waiter : Waiter) : Journal where
  opened := ⟨j.opened.undo ++ l.undo, j.opened.records.extend l.records,
    j.opened.waiters ++ [waiter]⟩
  inFlight := some (j.inFlight.getD [])

/-- Logs the reservation of a transition released at once, while a batch is pending. -/
def logReleasedCharge (j : Journal) (reservation : OriginQuotaReservation) : Journal :=
  if j.inFlight.isSome || !j.opened.waiters.isEmpty then
    { j with opened := { j.opened with undo := j.opened.undo ++ [.quota reservation] } }
  else j

/-- Takes the open batch for writing; nothing, ending the flusher, when no transition joined. -/
def take (j : Journal) : Option Batch × Journal :=
  if j.opened.waiters.isEmpty then (none, ⟨{ j.opened with undo := [] }, none⟩)
  else (some { j.opened with undo := [] }, ⟨.empty, some j.opened.undo⟩)

/-- Settles the batch in flight: on a failure, undoes the open batch and then it, and returns the
open batch, whose members fail too. -/
def settle (j : Journal) (durable : Bool) (s : Speculative) :
    Option Batch × Journal × Speculative :=
  let inFlight := j.inFlight.getD []
  if durable then (none, { j with inFlight := some [] }, s)
  else (some j.opened, ⟨.empty, some []⟩, rewind inFlight (rewind j.opened.undo s))

end Journal

/-! ### Runs -/

/-- What a transition returned to its caller, and when. -/
structure Returned where
  waiter : Waiter
  durable : Bool
  atStep : ℕ

/-- The result the caller sees. -/
def Returned.result (r : Returned) : Except ReplayError ReplayAnswer :=
  if r.durable then r.waiter.outcome else .error .persistence

/-- The replay runtime over its disk. The fields after `disk` observe the run and decide
nothing: the number of steps, the steps at which the batches began, what was written and what
was returned. -/
structure Runtime where
  state : Speculative
  journal : Journal
  /-- The batch the flusher is writing. -/
  writing : Option Batch
  disk : BTreeMap RecordKey StoredStream
  steps : ℕ
  openedAt : Option ℕ
  writingAt : Option ℕ
  written : List (RecordKey × Option StoredStream)
  returned : List Returned

/-- The disk once the staged records under `keys` have landed. -/
def landRecords (keys : RecordKey → Bool) (records : BTreeMap RecordKey (Option StoredStream))
    (disk : BTreeMap RecordKey StoredStream) : BTreeMap RecordKey StoredStream :=
  records.entries.foldl (fun d kv => if keys kv.1 then d.replace kv.1 kv.2 else d) disk

def ReplayTables.chargeAll (t : ReplayTables) (s : SlotAccounting) : SlotAccounting :=
  t.charges.entries.foldl (fun s kv => s.charge kv.2.introducer kv.2.spentAtMs) s

/-- The speculative state a start reads from the disk. -/
def Speculative.load (config : OriginQuotaConfig) (shares : Shares)
    (disk : BTreeMap RecordKey StoredStream) : Speculative :=
  let store := ReplayStore.restore (scan disk)
  ⟨store, .new config, store.tables.chargeAll (.new shares)⟩

inductive ReplayEvent where
  | call (call : ReplayCall)
  /-- A link-local admission, in the volatile window of its link. -/
  | admitOnLink (window : Option SequenceState) (key : StreamKey) (sequence : ℕ)
      (digest : TransactionDigest) (charge : OriginQuotaCharge) (byteCost quotaNow : ℕ)
  /-- The flusher takes the open batch. -/
  | take
  /-- The batch being written is durable, or has failed with the records under `landed` written. -/
  | settle (durable : Bool) (landed : RecordKey → Bool)
  /-- The process stops, with the records under `landed` written, and starts again. -/
  | crash (landed : RecordKey → Bool)

namespace Runtime

def start (config : OriginQuotaConfig) (shares : Shares) : Runtime where
  state := .load config shares .empty
  journal := .empty
  writing := none
  disk := .empty
  steps := 0
  openedAt := none
  writingAt := none
  written := []
  returned := []

def commit (r : Runtime) (call : ReplayCall) : Runtime :=
  let (outcome, l) := call.commit r.state
  { r with
    state := l.state
    journal := r.journal.join l ⟨r.steps, call, l.records, outcome⟩
    openedAt := some (r.openedAt.getD r.steps) }

/-- A link-local admission: its verdict, the window of the link, and the runtime after it. -/
def admitOnLink (r : Runtime) (window : Option SequenceState) (key : StreamKey) (sequence : ℕ)
    (digest : TransactionDigest) (charge : OriginQuotaCharge) (byteCost quotaNow : ℕ) :
    Except ReplayError SequenceVerdict × Option SequenceState × Runtime :=
  let (next, verdict) := observe window sequence digest
  match (outcome (Replay.refuseRejected key sequence verdict) (.new r.state)).1 with
  | .error e => (.error e, window, r)
  | .ok () =>
    let quotaKey := Replay.quotaKey key charge
    match r.state.quota.reserve quotaKey charge.messageLimit byteCost quotaNow with
    | (.error e, quota) =>
      (.error (.quota quotaKey byteCost e), window, { r with state := { r.state with quota } })
    | (.ok reservation, quota) =>
      let journal := r.journal.logReleasedCharge reservation
      (.ok verdict, some next, { r with
        state := { r.state with quota }
        journal
        openedAt := if journal.opened.undo.isEmpty then r.openedAt
          else some (r.openedAt.getD r.steps) })

def take (r : Runtime) : Runtime :=
  match r.writing, r.journal.inFlight with
  | none, some _ =>
    let (batch, journal) := r.journal.take
    { r with
      journal
      writing := batch
      writingAt := if batch.isSome then r.openedAt else none
      openedAt := none }
  | _, _ => r

/-- The flusher settles the batch it wrote. A batch with no record needs no write. -/
def settle (r : Runtime) (durable : Bool) (landed : RecordKey → Bool) : Runtime :=
  match r.writing with
  | none => r
  | some batch =>
    let durable := durable || batch.records.entries.isEmpty
    let (failed, journal, state) := r.journal.settle durable r.state
    let keys := fun k => durable || landed k
    let members := batch.waiters ++ failed.elim [] Batch.waiters
    { r with
      state
      journal
      writing := none
      disk := landRecords keys batch.records r.disk
      openedAt := if durable then r.openedAt else none
      writingAt := none
      written := r.written ++ batch.records.entries.filter fun kv => keys kv.1
      returned := r.returned ++ members.map fun waiter => ⟨waiter, durable, r.steps⟩ }

/-- The process stops and starts again from the stored records. -/
def crash (r : Runtime) (landed : RecordKey → Bool) : Runtime :=
  let records := r.writing.elim .empty Batch.records
  let disk := landRecords landed records r.disk
  { r with
    state := .load r.state.quota.config r.state.accounting.shares disk
    journal := .empty
    writing := none
    disk
    openedAt := none
    writingAt := none
    written := r.written ++ records.entries.filter fun kv => landed kv.1 }

def step (r : Runtime) (event : ReplayEvent) : Runtime :=
  let next := match event with
    | .call call => r.commit call
    | .admitOnLink window key sequence digest charge byteCost quotaNow =>
      (r.admitOnLink window key sequence digest charge byteCost quotaNow).2.2
    | .take => r.take
    | .settle durable landed => r.settle durable landed
    | .crash landed => r.crash landed
  { next with steps := r.steps + 1 }

def run (r : Runtime) (events : List ReplayEvent) : Runtime := events.foldl step r

end Runtime

end Rings
