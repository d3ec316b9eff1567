import Rings.Effect
import Rings.JoinLaws
import Rings.SlotItems

/-!
The data store, factored into an element side and a remove side.

A carrier is stored as two records under one key: its elements in a store that may evict them,
its removes and its register, each with its charge, in a store that refuses and never evicts.
A read glues the two. A put writes the remove side first, and only when it changed, under the
slot accounting of its items; a removal takes the element side first. The first operation after
the store is opened runs the recovery pass, which counts every remove side and normalizes every
element side against it.

Every access to the stores may fail, and a failed access leaves them unchanged. A process that
stops between two accesses is the same call with the second access failing and the index lost.
-/

namespace Rings

/-! ### Remove sides -/

structure ChargedRemove where
  tombstone : EntryTombstone
  charge : Principal
deriving DecidableEq

structure ChargedRegister where
  version : EntryVersion
  charge : Principal
deriving DecidableEq

structure RemovalRecord where
  did : Did
  register : Option ChargedRegister
  removes : List ChargedRemove
deriving DecidableEq

/-- The instant a remove or register at `version` is stable: `τ + H + σ`. -/
def stableAt (version : EntryVersion) : ℕ :=
  let horizonMs := (EntryKind.elementHorizonMs .data).getD 0
  saturatingAdd u128Max (saturatingAdd u128Max version.logicalTimeMs horizonMs) tsOffsetToleranceMs

namespace RemovalRecord

/-- The charge `previous` holds for a remove. -/
def heldCharge (previous : Option RemovalRecord) (tombstone : EntryTombstone) : Option Principal :=
  previous.bind fun previous =>
    (previous.removes.find? fun held => held.tombstone = tombstone).map ChargedRemove.charge

/-- The remove side of `value`, charging `charge` with what it raised over `previous`. -/
def of (value : Entry) (previous : Option RemovalRecord) (charge : Principal) :
    Option RemovalRecord :=
  let removes := value.crdt.tombstones.map fun tombstone =>
    ⟨tombstone, (heldCharge previous tombstone).getD charge⟩
  let register := value.crdt.register.map fun version =>
    ⟨version, (((previous.bind RemovalRecord.register).filter fun held =>
      held.version = version).map ChargedRegister.charge).getD charge⟩
  if removes.isEmpty && register.isNone then none
  else some { did := value.did, register, removes }

def asEntry (r : RemovalRecord) : Entry where
  did := r.did
  data := []
  kind := .data
  crdt := ⟨r.register.map ChargedRegister.version, [], r.removes.map ChargedRemove.tombstone⟩
  expiresAtMs := some 0

def items (r : RemovalRecord) : List Item :=
  (r.removes.map fun remove => (remove.charge, stableAt remove.tombstone.dot.version)) ++
    r.register.toList.map fun register => (register.charge, stableAt register.version)

end RemovalRecord

def elementSide (value : Entry) : Entry :=
  { value with crdt := ⟨none, value.crdt.dots, []⟩ }

/-- Whether an element side still holds a remove side: a whole carrier written before the
factoring. -/
def isWhole (held : Entry) : Bool := !held.crdt.tombstones.isEmpty || held.crdt.register.isSome

variable (codec : Codec)

/-- `E ⊔ R`: concatenation, or the full join for a whole carrier. -/
def glue (elements : Option Entry) (removals : Option RemovalRecord) :
    Except EntryError (Option Entry) :=
  match removals with
  | none => .ok elements
  | some removals =>
    match elements with
    | none => .ok (some removals.asEntry)
    | some elements =>
      if isWhole elements then do return some (← elements.join codec removals.asEntry)
      else
        let removeSide := removals.asEntry
        .ok (some { elements with
          crdt := ⟨removeSide.crdt.register, elements.crdt.dots, removeSide.crdt.tombstones⟩
          expiresAtMs := max elements.expiresAtMs removeSide.expiresAtMs })

/-! ### The items a transition changes -/

inductive CarrierError where
  /-- An access to a store failed. -/
  | storage
  | entry (error : EntryError)
  | removalCapacityExhausted (introducer : Principal) (refusal : ShareRefusal)

structure ItemChanges where
  left : List Item
  raised : List Item

namespace ItemChanges

/-- The items of a record unstable at `nowMs`. -/
def unstable (nowMs : ℕ) (record : Option RemovalRecord) : List Item :=
  (record.toList.flatMap RemovalRecord.items).filter fun item => item.2 > nowMs

/-- The count of every item, `delta` for each of `items` added to `counts`. -/
def tally (delta : ℤ) (items : List Item) (counts : BTreeMap (Principal ×ₗ ℕ) ℤ) :
    BTreeMap (Principal ×ₗ ℕ) ℤ :=
  items.foldl (fun counts item =>
    counts.insert (toLex item) ((counts.get? (toLex item)).getD 0 + delta)) counts

/-- The multiset differences of the items of `previous` and `next` unstable at `nowMs`. -/
def of (previous next : Option RemovalRecord) (nowMs : ℕ) : ItemChanges :=
  let counts := tally 1 (unstable nowMs next) (tally (-1) (unstable nowMs previous) .empty)
  let repeated := fun kv : (Principal ×ₗ ℕ) × ℤ => List.replicate kv.2.natAbs (ofLex kv.1)
  { left := (counts.entries.filter fun kv => kv.2 < 0).flatMap repeated
    raised := (counts.entries.filter fun kv => !(kv.2 < 0)).flatMap repeated }

def chargeAll (accounting : SlotAccounting) (items : List Item) : SlotAccounting :=
  items.foldl (fun accounting item => accounting.charge item.1 item.2) accounting

def dischargeAll (accounting : SlotAccounting) (items : List Item) : SlotAccounting :=
  items.foldl (fun accounting item => accounting.discharge item.1 item.2) accounting

/-- Forget the `raised` items and charge the `left` ones again. -/
def undo (left raised : List Item) (accounting : SlotAccounting) : SlotAccounting :=
  chargeAll (dischargeAll accounting raised) left

/-- Admit and charge each item raised, undoing the ones `done` at a refusal. -/
def raiseAll (left : List Item) : List Item → List Item → SlotAccounting →
    Except CarrierError Unit × SlotAccounting
  | _, [], accounting => (.ok (), accounting)
  | done, item :: rest, accounting =>
    match accounting.tryAdmit item.1 with
    | .error refusal =>
      (.error (.removalCapacityExhausted item.1 refusal), undo left done accounting)
    | .ok () => raiseAll left (done ++ [item]) rest (accounting.charge item.1 item.2)

def apply (changes : ItemChanges) (accounting : SlotAccounting) (nowMs : ℕ) :
    Except CarrierError Unit × SlotAccounting :=
  raiseAll changes.left [] changes.raised
    (dischargeAll (accounting.advance nowMs) changes.left)

def revert (changes : ItemChanges) (accounting : SlotAccounting) : SlotAccounting :=
  undo changes.left changes.raised accounting

/-- Items are refused by the budget alone. -/
lemma raiseAll_error {left done items : List Item} {accounting : SlotAccounting} {e : CarrierError}
    (h : (raiseAll left done items accounting).1 = .error e) :
    ∃ p refusal, e = .removalCapacityExhausted p refusal := by
  induction items generalizing done accounting with
  | nil => cases h
  | cons item rest ih =>
    rw [raiseAll] at h
    split at h
    · cases h
      exact ⟨_, _, rfl⟩
    · exact ih h

end ItemChanges

/-! ### The stores -/

variable {Key : Type} [LinearOrder Key]

structure Disk (Key : Type) [LinearOrder Key] where
  elements : BTreeMap Key Entry
  removals : BTreeMap Key RemovalRecord

/-- The accounting of a removal store, filled by the recovery pass. The instant of the last
advance is kept for what is said about it: no step of the code reads it. -/
structure RemovalIndex where
  recovered : Bool
  accounting : SlotAccounting
  advancedMs : ℕ

def RemovalIndex.new : RemovalIndex := ⟨false, .new removalShares, 0⟩

/-- Which of the accesses to come fail, in the recovery pass and in the call itself. -/
structure Faults where
  recovery : List Bool
  call : List Bool

def Faults.none : Faults := ⟨[], []⟩

structure Stores (Key : Type) [LinearOrder Key] where
  disk : Disk Key
  index : RemovalIndex
  faults : Faults

abbrev StoreM (Key : Type) [LinearOrder Key] := Effect (Stores Key) CarrierError

namespace CarrierStore

/-- One access to a store, by the call itself. -/
def access : StoreM Key Unit := do
  let w ← get
  modify fun w => { w with faults := { w.faults with call := w.faults.call.tail } }
  if w.faults.call.headD false then throw .storage

/-- One access to a store, by the recovery pass. -/
def recoveryAccess : StoreM Key Unit := do
  let w ← get
  modify fun w => { w with faults := { w.faults with recovery := w.faults.recovery.tail } }
  if w.faults.recovery.headD false then throw .storage

def setDisk (f : Disk Key → Disk Key) : StoreM Key Unit :=
  modify fun w => { w with disk := f w.disk }

def setIndex (f : RemovalIndex → RemovalIndex) : StoreM Key Unit :=
  modify fun w => { w with index := f w.index }

def ofExcept {α : Type} : Except EntryError α → StoreM Key α
  | .ok a => pure a
  | .error e => throw (.entry e)

def putElements (key : Key) (value : Entry) (d : Disk Key) : Disk Key :=
  { d with elements := d.elements.insert key value }

/-- The remove side of `key` written: its record, or nothing. -/
def setRemovals (key : Key) (next : Option RemovalRecord) (d : Disk Key) : Disk Key :=
  { d with
    removals := match next with
      | some record => d.removals.insert key record
      | none => d.removals.remove key }

/-- One record of the recovery pass: count it, and normalize the element side it is glued to. -/
def recoverRecord (key : Key) (record : RemovalRecord) : StoreM Key Unit := do
  setIndex fun i => { i with accounting := ItemChanges.chargeAll i.accounting record.items }
  recoveryAccess
  match (← get).disk.elements.get? key with
  | none => pure ()
  | some held =>
    let normalized ← ofExcept (held.join codec record.asEntry)
    if isWhole held || normalized.data.length ≠ held.data.length then
      recoveryAccess
      setDisk (putElements key (elementSide normalized))

def recoverAll : List (Key × RemovalRecord) → StoreM Key Unit
  | [] => pure ()
  | (key, record) :: rest => do
    recoverRecord codec key record
    recoverAll rest

def ensureRecovered : StoreM Key Unit := do
  if (← get).index.recovered then return
  recoveryAccess
  recoverAll codec (← get).disk.removals.entries
  setIndex fun i => { i with recovered := true }

def getElements (key : Key) : StoreM Key (Option Entry) := do
  access
  return (← get).disk.elements.get? key

def getRemovals (key : Key) : StoreM Key (Option RemovalRecord) := do
  access
  return (← get).disk.removals.get? key

def writeRemovals (key : Key) (next : Option RemovalRecord) : StoreM Key Unit := do
  access
  setDisk (setRemovals key next)

def get (key : Key) : StoreM Key (Option Entry) := do
  ensureRecovered codec
  let record ← getRemovals key
  let held ← getElements key
  ofExcept (glue codec held record)

/-- Admit a changed remove side and write it, reverting its items when the write fails. -/
def putRemovals (key : Key) (previous next : Option RemovalRecord) (nowMs : ℕ) :
    StoreM Key Unit := do
  let changes := ItemChanges.of previous next nowMs
  let applied := changes.apply (← MonadState.get).index.accounting nowMs
  setIndex fun i => { i with accounting := applied.2, advancedMs := nowMs }
  match applied.1 with
  | .error e => throw e
  | .ok () =>
    tryCatch (writeRemovals key next) fun e => do
      setIndex fun i => { i with accounting := changes.revert i.accounting }
      throw e

/-- Store `value`, normalized, at `key`, charging what it raises to `introducer`. -/
def put (key : Key) (value : Entry) (introducer : Principal) (nowMs : ℕ) : StoreM Key Unit := do
  ensureRecovered codec
  let previous ← getRemovals key
  let next := RemovalRecord.of value previous introducer
  if next ≠ previous then putRemovals key previous next nowMs
  access
  setDisk (putElements key (elementSide value))

/-- Remove the carrier stored at `key`: its element side, then its remove side. -/
def remove (key : Key) : StoreM Key Unit := do
  ensureRecovered codec
  access
  setDisk fun d => { d with elements := d.elements.remove key }
  match ← getRemovals key with
  | none => pure ()
  | some record =>
    writeRemovals key none
    setIndex fun i => { i with accounting := ItemChanges.dischargeAll i.accounting record.items }

/-- Every element side glued to its remove side. -/
def glueAll (removals : BTreeMap Key RemovalRecord) (l : List (Key × Entry)) :
    Except EntryError (List (Key × Option Entry)) :=
  l.mapM fun (key, held) => do return (key, ← glue codec (some held) (removals.get? key))

def getAll : StoreM Key (List (Key × Entry)) := do
  ensureRecovered codec
  access
  let records := (← MonadState.get).disk.removals
  access
  let held := (← MonadState.get).disk.elements
  let glued ← ofExcept (glueAll codec records held.entries)
  let alone := records.retain fun key _ => (held.get? key).isNone
  return glued.filterMap (fun (key, carrier) => carrier.map (key, ·)) ++
    alone.entries.map fun (key, record) => (key, record.asEntry)

/-- The stores with the accesses of a call to come. -/
def under (w : Stores Key) (faults : Faults) : Stores Key := { w with faults }

/-! ### What one call does -/

section Outcomes

open Effect

variable {codec} {w w' : Stores Key} {key : Key} {value : Entry} {introducer : Principal}
  {nowMs : ℕ}

/-- The stores after one access of the call. -/
def ticked (w : Stores Key) : Stores Key :=
  { w with faults := { w.faults with call := w.faults.call.tail } }

lemma outcome_access (w : Stores Key) : outcome access w =
    (if w.faults.call.headD false then .error .storage else .ok (), ticked w) := by
  rw [access, outcome_bind_of_ok (outcome_get w), outcome_bind_of_ok (outcome_modify _ w)]
  split <;> rfl

lemma outcome_access_of_ok (h : w.faults.call.headD false = false) :
    outcome access w = (.ok (), ticked w) := by
  rw [outcome_access, h]
  rfl

lemma outcome_access_of_fault (h : w.faults.call.headD false = true) :
    outcome access w = (.error .storage, ticked w) := by
  rw [outcome_access, h]
  rfl

/-- What a put does to the stores and the index once the recovery pass has run: the remove side
may be refused, a failed access leaves what was written before it, and only the third access
leaves a new remove side under an old element side. -/
inductive PutFrom (key : Key) (value : Entry) (introducer : Principal) (nowMs : ℕ) (d : Disk Key)
    (i : RemovalIndex) (faults : List Bool) :
    Except CarrierError Unit → Disk Key → RemovalIndex → Prop
  | failed (fault : true ∈ faults) : PutFrom key value introducer nowMs d i faults
      (.error .storage) d i
  | refused (e : CarrierError) (next : Option RemovalRecord)
      (of : next = RemovalRecord.of value (d.removals.get? key) introducer)
      (changed : next ≠ d.removals.get? key) (applied : Except CarrierError Unit × SlotAccounting)
      (apply : applied =
        (ItemChanges.of (d.removals.get? key) next nowMs).apply i.accounting nowMs)
      (error : applied.1 = .error e) :
      PutFrom key value introducer nowMs d i faults (.error e) d
        { i with accounting := applied.2, advancedMs := nowMs }
  | reverted (fault : true ∈ faults) (next : Option RemovalRecord)
      (of : next = RemovalRecord.of value (d.removals.get? key) introducer)
      (changed : next ≠ d.removals.get? key) (applied : Except CarrierError Unit × SlotAccounting)
      (apply : applied =
        (ItemChanges.of (d.removals.get? key) next nowMs).apply i.accounting nowMs)
      (ok : applied.1 = .ok ()) :
      PutFrom key value introducer nowMs d i faults (.error .storage) d
        { i with
          accounting := (ItemChanges.of (d.removals.get? key) next nowMs).revert applied.2
          advancedMs := nowMs }
  | torn (cut : faults.take 3 = [false, false, true]) (next : Option RemovalRecord)
      (of : next = RemovalRecord.of value (d.removals.get? key) introducer)
      (changed : next ≠ d.removals.get? key) (applied : Except CarrierError Unit × SlotAccounting)
      (apply : applied =
        (ItemChanges.of (d.removals.get? key) next nowMs).apply i.accounting nowMs)
      (ok : applied.1 = .ok ()) :
      PutFrom key value introducer nowMs d i faults (.error .storage) (setRemovals key next d)
        { i with accounting := applied.2, advancedMs := nowMs }
  | unchanged (of : d.removals.get? key = RemovalRecord.of value (d.removals.get? key) introducer) :
      PutFrom key value introducer nowMs d i faults (.ok ())
        (putElements key (elementSide value) d) i
  | written (next : Option RemovalRecord)
      (of : next = RemovalRecord.of value (d.removals.get? key) introducer)
      (changed : next ≠ d.removals.get? key) (applied : Except CarrierError Unit × SlotAccounting)
      (apply : applied =
        (ItemChanges.of (d.removals.get? key) next nowMs).apply i.accounting nowMs)
      (ok : applied.1 = .ok ()) :
      PutFrom key value introducer nowMs d i faults (.ok ())
        (putElements key (elementSide value) (setRemovals key next d))
        { i with accounting := applied.2, advancedMs := nowMs }

@[simp] lemma outcome_setIndex (f : RemovalIndex → RemovalIndex) (w : Stores Key) :
    outcome (setIndex f) w = (.ok (), { w with index := f w.index }) := rfl

@[simp] lemma outcome_setDisk (f : Disk Key → Disk Key) (w : Stores Key) :
    outcome (setDisk f) w = (.ok (), { w with disk := f w.disk }) := rfl

lemma mem_of_headD {l : List Bool} (h : l.headD false = true) : true ∈ l := by
  cases l with
  | nil => cases h
  | cons b l =>
    rw [List.headD_cons] at h
    rw [h]
    exact List.mem_cons_self

lemma take_three {l : List Bool} (h0 : l.headD false = false) (h1 : l.tail.headD false = false)
    (h2 : l.tail.tail.headD false = true) : l.take 3 = [false, false, true] := by
  match l with
  | [] | [_] | [_, _] => simp at h2
  | a :: b :: c :: l =>
    simp only [List.headD_cons, List.tail_cons] at h0 h1 h2
    simp [h0, h1, h2]

/-- The last access of a put, after its remove side. -/
lemma outcome_putElements (w : Stores Key) (value : Entry) :
    outcome (do access; setDisk (putElements key (elementSide value))) w =
      if w.faults.call.headD false then (.error .storage, ticked w)
      else (.ok (), { ticked w with disk := putElements key (elementSide value) w.disk }) := by
  split
  · rename_i h
    rw [outcome_bind_of_error (outcome_access_of_fault h)]
  · rename_i h
    rw [outcome_bind_of_ok (outcome_access_of_ok (by simpa using h))]
    rfl

lemma outcome_getRemovals_of_ok (key : Key) (h : w.faults.call.headD false = false) :
    outcome (getRemovals key) w = (.ok (w.disk.removals.get? key), ticked w) := by
  rw [getRemovals, outcome_bind_of_ok (outcome_access_of_ok h)]
  rfl

lemma outcome_getRemovals_of_fault (key : Key) (h : w.faults.call.headD false = true) :
    outcome (getRemovals key) w = (.error .storage, ticked w) := by
  rw [getRemovals, outcome_bind_of_error (outcome_access_of_fault h)]

lemma outcome_getElements_of_ok (key : Key) (h : w.faults.call.headD false = false) :
    outcome (getElements key) w = (.ok (w.disk.elements.get? key), ticked w) := by
  rw [getElements, outcome_bind_of_ok (outcome_access_of_ok h)]
  rfl

lemma outcome_getElements_of_fault (key : Key) (h : w.faults.call.headD false = true) :
    outcome (getElements key) w = (.error .storage, ticked w) := by
  rw [getElements, outcome_bind_of_error (outcome_access_of_fault h)]

/-- What a read does past the recovery pass: it glues what the stores hold, and changes
neither them nor the index. -/
lemma get_outcome {v : Stores Key} (h : outcome (ensureRecovered codec) w = (.ok (), v)) :
    (outcome (get codec key) w).2.disk = v.disk ∧ (outcome (get codec key) w).2.index = v.index ∧
      (v.faults.call = [] → (outcome (get codec key) w).1 =
        (glue codec (v.disk.elements.get? key) (v.disk.removals.get? key)).mapError .entry) := by
  rw [get, outcome_bind_of_ok h]
  rcases h0 : v.faults.call.headD false with _ | _
  · rw [outcome_bind_of_ok (outcome_getRemovals_of_ok key h0)]
    rcases h1 : (ticked v).faults.call.headD false with _ | _
    · rw [outcome_bind_of_ok (outcome_getElements_of_ok key h1)]
      have hglue : ∀ x : Except EntryError (Option Entry), outcome (ofExcept x)
          (ticked (ticked v)) = (x.mapError CarrierError.entry, ticked (ticked v)) := by
        intro x
        cases x <;> rfl
      rw [hglue]
      exact ⟨rfl, rfl, fun _ => rfl⟩
    · rw [outcome_bind_of_error (outcome_getElements_of_fault key h1)]
      refine ⟨rfl, rfl, fun hnone => ?_⟩
      simp [ticked, hnone] at h1
  · rw [outcome_bind_of_error (outcome_getRemovals_of_fault key h0)]
    refine ⟨rfl, rfl, fun hnone => ?_⟩
    simp [hnone] at h0

lemma outcome_writeRemovals (key : Key) (next : Option RemovalRecord) (w : Stores Key) :
    outcome (writeRemovals key next) w =
      if w.faults.call.headD false then (.error .storage, ticked w)
      else (.ok (), { ticked w with disk := setRemovals key next w.disk }) := by
  rw [writeRemovals]
  split
  · rename_i h
    rw [outcome_bind_of_error (outcome_access_of_fault h)]
  · rename_i h
    rw [outcome_bind_of_ok (outcome_access_of_ok (by simpa using h))]
    rfl

/-- The remove side of a put: refused, written, or reverted when the write fails. -/
lemma outcome_putRemovals {k : Key} (w : Stores Key) {previous next : Option RemovalRecord}
    {applied : Except CarrierError Unit × SlotAccounting}
    (happlied : applied = (ItemChanges.of previous next nowMs).apply w.index.accounting nowMs) :
    outcome (putRemovals k previous next nowMs) w =
      match applied.1 with
      | .error e =>
        (.error e, { w with index := { w.index with accounting := applied.2, advancedMs := nowMs } })
      | .ok () =>
        if w.faults.call.headD false then
          (.error .storage, { ticked w with
            index := { w.index with
              accounting := (ItemChanges.of previous next nowMs).revert applied.2
              advancedMs := nowMs } })
        else
          (.ok (), { ticked w with
            disk := setRemovals k next w.disk
            index := { w.index with accounting := applied.2, advancedMs := nowMs } }) := by
  rw [putRemovals, outcome_bind_of_ok (outcome_get w), ← happlied]
  simp only
  rw [outcome_bind_of_ok (outcome_setIndex _ w)]
  rcases applied with ⟨_ | _, a⟩
  · rfl
  · simp only
    rw [outcome_tryCatch, outcome_writeRemovals]
    by_cases h : w.faults.call.headD false = true
    · simp only [h, if_true]
      rfl
    · simp only [h]
      rfl

lemma put_outcome (h : outcome (ensureRecovered codec) w = (.ok (), w')) :
    PutFrom key value introducer nowMs w'.disk w'.index w'.faults.call
      (outcome (put codec key value introducer nowMs) w).1
      (outcome (put codec key value introducer nowMs) w).2.disk
      (outcome (put codec key value introducer nowMs) w).2.index := by
  rw [put, outcome_bind_of_ok h]
  rcases h0 : w'.faults.call.headD false with _ | _
  · rw [outcome_bind_of_ok (outcome_getRemovals_of_ok key h0)]
    generalize hnext : RemovalRecord.of value (w'.disk.removals.get? key) introducer = next
    by_cases hsame : next ≠ w'.disk.removals.get? key
    · rw [if_pos hsame]
      obtain ⟨applied, happlied⟩ : ∃ applied, applied =
        (ItemChanges.of (w'.disk.removals.get? key) next nowMs).apply
          (ticked w').index.accounting nowMs := ⟨_, rfl⟩
      have hput := outcome_putRemovals (k := key) (ticked w') happlied
      have hnext' := hnext.symm
      rcases happly : applied.1 with e | _
      · rw [happly] at hput
        rw [outcome_bind_of_error hput]
        exact .refused e next hnext' hsame applied happlied happly
      · rw [happly] at hput
        simp only at hput
        rcases h1 : (ticked w').faults.call.headD false with _ | _
        · rw [h1, if_neg Bool.false_ne_true] at hput
          rw [outcome_bind_of_ok hput]
          simp only [outcome_putElements]
          split
          · rename_i h2
            exact .torn (take_three h0 h1 h2) next hnext' hsame applied happlied happly
          · exact .written next hnext' hsame applied happlied happly
        · rw [h1, if_pos rfl] at hput
          rw [outcome_bind_of_error hput]
          exact .reverted (List.mem_of_mem_tail (mem_of_headD h1)) next hnext' hsame applied
            happlied happly
    · rw [if_neg hsame]
      simp only [outcome_putElements]
      split
      · rename_i h1
        exact .failed (List.mem_of_mem_tail (mem_of_headD h1))
      · refine .unchanged ?_
        rw [hnext]
        exact (not_not.1 hsame).symm
  · rw [outcome_bind_of_error (outcome_getRemovals_of_fault key h0)]
    exact .failed (mem_of_headD h0)

/-- What a removal does to the stores and the index once the recovery pass has run. -/
inductive RemoveFrom (key : Key) (d : Disk Key) (i : RemovalIndex) (faults : List Bool) :
    Except CarrierError Unit → Disk Key → RemovalIndex → Prop
  | failed (fault : true ∈ faults) : RemoveFrom key d i faults (.error .storage) d i
  | torn (fault : true ∈ faults) : RemoveFrom key d i faults (.error .storage)
      { d with elements := d.elements.remove key } i
  | bare (none : d.removals.get? key = none) : RemoveFrom key d i faults (.ok ())
      { d with elements := d.elements.remove key } i
  | removed (record : RemovalRecord) (some : d.removals.get? key = some record) :
      RemoveFrom key d i faults (.ok ())
        (setRemovals key none { d with elements := d.elements.remove key })
        { i with accounting := ItemChanges.dischargeAll i.accounting record.items }

lemma remove_outcome (h : outcome (ensureRecovered codec) w = (.ok (), w')) :
    RemoveFrom key w'.disk w'.index w'.faults.call (outcome (remove codec key) w).1
      (outcome (remove codec key) w).2.disk (outcome (remove codec key) w).2.index := by
  rw [remove, outcome_bind_of_ok h]
  rcases h0 : w'.faults.call.headD false with _ | _
  · rw [outcome_bind_of_ok (outcome_access_of_ok h0), outcome_bind_of_ok (outcome_setDisk _ _)]
    generalize hv : ({ ticked w' with
      disk := { (ticked w').disk with elements := (ticked w').disk.elements.remove key } } :
        Stores Key) = v
    have hdisk : v.disk = { w'.disk with elements := w'.disk.elements.remove key } := by
      rw [← hv]
      rfl
    have hindex : v.index = w'.index := by
      rw [← hv]
      rfl
    have hcall : v.faults.call = w'.faults.call.tail := by
      rw [← hv]
      rfl
    rcases h1 : v.faults.call.headD false with _ | _
    · rw [outcome_bind_of_ok (outcome_getRemovals_of_ok key h1), hdisk]
      rcases hrec : w'.disk.removals.get? key with _ | record
      · simp only [outcome_pure, ticked, hdisk, hindex]
        exact .bare hrec
      · have hwrite := outcome_writeRemovals key none (ticked v)
        simp only
        split at hwrite
        · rename_i h2
          rw [outcome_bind_of_error hwrite]
          simp only [ticked, hdisk, hindex]
          refine .torn (List.mem_of_mem_tail (hcall ▸ List.mem_of_mem_tail (mem_of_headD h2)))
        · rw [outcome_bind_of_ok hwrite]
          simp only [outcome_setIndex, ticked, hdisk, hindex]
          exact .removed record hrec
    · rw [outcome_bind_of_error (outcome_getRemovals_of_fault key h1)]
      simp only [ticked, hdisk, hindex]
      exact .torn (List.mem_of_mem_tail (hcall ▸ mem_of_headD h1))
  · rw [outcome_bind_of_error (outcome_access_of_fault h0)]
    exact .failed (mem_of_headD h0)

/-! ### What the recovery pass does -/

/-- The element side `held` normalized against the remove side it is glued to. -/
def settle (codec : Codec) (record : RemovalRecord) (held : Entry) : Entry :=
  match held.join codec record.asEntry with
  | .error _ => held
  | .ok normalized =>
    if isWhole held || normalized.data.length ≠ held.data.length then elementSide normalized
    else held

/-- No access of a script fails. -/
def Clean (script : List Bool) : Prop := ∀ fault ∈ script, fault = false

lemma Clean.tail {script : List Bool} (h : Clean script) : Clean script.tail := fun fault hf =>
  h fault (List.mem_of_mem_tail hf)

lemma Clean.headD {script : List Bool} (h : Clean script) : script.headD false = false := by
  cases script with
  | nil => rfl
  | cons fault script => exact h fault List.mem_cons_self

/-- The stores after one access of the recovery pass. -/
def recoveryTicked (w : Stores Key) : Stores Key :=
  { w with faults := { w.faults with recovery := w.faults.recovery.tail } }

lemma outcome_recoveryAccess (w : Stores Key) : outcome recoveryAccess w =
    (if w.faults.recovery.headD false then .error .storage else .ok (), recoveryTicked w) := by
  rw [recoveryAccess, outcome_bind_of_ok (outcome_get w), outcome_bind_of_ok (outcome_modify _ w)]
  split <;> rfl

/-- What the recovery of one record does: it counts the record, and the element side of its key
is as it was, or normalized; it is normalized whenever the step goes through. -/
structure RecordStep (codec : Codec) (key : Key) (record : RemovalRecord) (w : Stores Key)
    (r : Except CarrierError Unit) (w' : Stores Key) : Prop where
  index : w'.index = { w.index with
    accounting := ItemChanges.chargeAll w.index.accounting record.items }
  removals : w'.disk.removals = w.disk.removals
  call : w'.faults.call = w.faults.call
  other : ∀ k, k ≠ key → w'.disk.elements.get? k = w.disk.elements.get? k
  either : w'.disk.elements.get? key = w.disk.elements.get? key ∨
    w'.disk.elements.get? key = (w.disk.elements.get? key).map (settle codec record)
  settled : r = .ok () →
    w'.disk.elements.get? key = (w.disk.elements.get? key).map (settle codec record)
  clean : Clean w.faults.recovery →
    (∀ held, w.disk.elements.get? key = some held → ∃ z, held.join codec record.asEntry = .ok z) →
    r = .ok () ∧ Clean w'.faults.recovery
  admits : ∀ p refusal, r ≠ .error (.removalCapacityExhausted p refusal)

/-- A step that leaves the element side where it was. -/
lemma RecordStep.of_same {codec : Codec} {key : Key} {record : RemovalRecord} {w w' : Stores Key}
    {r : Except CarrierError Unit}
    (index : w'.index = { w.index with
      accounting := ItemChanges.chargeAll w.index.accounting record.items })
    (disk : w'.disk = w.disk) (call : w'.faults.call = w.faults.call)
    (settled : r = .ok () →
      w.disk.elements.get? key = (w.disk.elements.get? key).map (settle codec record))
    (clean : Clean w.faults.recovery →
      (∀ held, w.disk.elements.get? key = some held →
        ∃ z, held.join codec record.asEntry = .ok z) → r = .ok () ∧ Clean w'.faults.recovery)
    (admits : ∀ p refusal, r ≠ .error (.removalCapacityExhausted p refusal)) :
    RecordStep codec key record w r w' where
  index := index
  removals := by rw [disk]
  call := call
  other := fun k _ => by rw [disk]
  either := Or.inl (by rw [disk])
  settled := fun h => by rw [disk]; exact settled h
  clean := clean
  admits := admits

lemma outcome_recoveryAccess_of_ok (h : w.faults.recovery.headD false = false) :
    outcome recoveryAccess w = (.ok (), recoveryTicked w) := by
  rw [outcome_recoveryAccess, h]
  rfl

lemma outcome_recoveryAccess_of_fault (h : w.faults.recovery.headD false = true) :
    outcome recoveryAccess w = (.error .storage, recoveryTicked w) := by
  rw [outcome_recoveryAccess, h]
  rfl

lemma recoverRecord_outcome (w : Stores Key) (record : RemovalRecord) :
    RecordStep codec key record w (outcome (recoverRecord codec key record) w).1
      (outcome (recoverRecord codec key record) w).2 := by
  rw [recoverRecord, outcome_bind_of_ok (outcome_setIndex _ w)]
  generalize hv : ({ w with
    index := { w.index with accounting := ItemChanges.chargeAll w.index.accounting record.items } } :
      Stores Key) = v
  have hdisk : v.disk = w.disk := by rw [← hv]
  have hfaults : v.faults = w.faults := by rw [← hv]
  have hindex : v.index = { w.index with
      accounting := ItemChanges.chargeAll w.index.accounting record.items } := by rw [← hv]
  rcases h0 : v.faults.recovery.headD false with _ | _
  · rw [outcome_bind_of_ok (outcome_recoveryAccess_of_ok h0),
      outcome_bind_of_ok (outcome_get _)]
    have hget : (recoveryTicked v).disk.elements.get? key = w.disk.elements.get? key := by
      rw [← hdisk]
      rfl
    rw [hget]
    rcases hheld : w.disk.elements.get? key with _ | held
    · refine .of_same hindex hdisk (by rw [← hfaults]; rfl) (fun _ => by simp [hheld]) ?_
        (fun p refusal h => by cases h)
      exact fun hclean _ => ⟨rfl, by rw [← hfaults] at hclean; exact hclean.tail⟩
    · simp only
      rcases hjoin : held.join codec record.asEntry with e | z
      · refine .of_same hindex hdisk (by rw [← hfaults]; rfl) (fun h => by cases h) ?_
          (fun p refusal h => by cases h)
        intro _ hjoins
        obtain ⟨z, hz⟩ := hjoins held hheld
        rw [hjoin] at hz
        cases hz
      · have hbind : outcome (ofExcept (.ok z) : StoreM Key Entry) (recoveryTicked v) =
            (.ok z, recoveryTicked v) := rfl
        rw [outcome_bind_of_ok hbind]
        by_cases hrewrite : (isWhole held || decide (z.data.length ≠ held.data.length)) = true
        · have hsettle : settle codec record held = elementSide z := by
            rw [settle, hjoin]
            simp only [hrewrite, if_true]
          rw [if_pos hrewrite]
          rcases h1 : (recoveryTicked v).faults.recovery.headD false with _ | _
          · rw [outcome_bind_of_ok (outcome_recoveryAccess_of_ok h1)]
            have hset : ∀ k, ((w.disk.elements.insert key (elementSide z)).get? k) =
                if k = key then some (settle codec record held) else w.disk.elements.get? k := by
              intro k
              rw [BTreeMap.get?_insert, hsettle]
            have helements : ∀ k, (outcome (setDisk (putElements key (elementSide z)))
                (recoveryTicked (recoveryTicked v))).2.disk.elements.get? k =
                if k = key then some (settle codec record held) else w.disk.elements.get? k := by
              intro k
              rw [← hset, ← hdisk]
              rfl
            have hkey := (helements key).trans (if_pos rfl)
            refine ⟨hindex, ?_, ?_, fun k hk => (helements k).trans (if_neg hk), ?_, ?_, ?_,
              fun p refusal h => by cases h⟩
            · rw [← hdisk]
              rfl
            · rw [← hfaults]
              rfl
            · exact Or.inr (by rw [hkey, hheld]; rfl)
            · exact fun _ => by rw [hkey, hheld]; rfl
            · exact fun hclean _ => ⟨rfl, by rw [← hfaults] at hclean; exact hclean.tail.tail⟩
          · rw [outcome_bind_of_error (outcome_recoveryAccess_of_fault h1)]
            refine .of_same hindex hdisk (by rw [← hfaults]; rfl) (fun h => by cases h) ?_
              (fun p refusal h => by cases h)
            intro hclean
            rw [← hfaults] at hclean
            have := hclean.tail.headD
            rw [show v.faults.recovery.tail = (recoveryTicked v).faults.recovery from rfl, h1] at this
            cases this
        · rw [if_neg hrewrite]
          refine .of_same hindex hdisk (by rw [← hfaults]; rfl) (fun _ => ?_) ?_
            (fun p refusal h => by cases h)
          · rw [hheld, Option.map_some, settle, hjoin]
            simp only
            rw [if_neg hrewrite]
          · exact fun hclean _ => ⟨rfl, by rw [← hfaults] at hclean; exact hclean.tail⟩
  · rw [outcome_bind_of_error (outcome_recoveryAccess_of_fault h0)]
    refine .of_same hindex hdisk (by rw [← hfaults]; rfl) (fun h => by cases h) ?_
      (fun p refusal h => by cases h)
    intro hclean
    rw [← hfaults] at hclean
    rw [hclean.headD] at h0
    cases h0

/-- What the recovery pass does to the stores: every element side is as it was or normalized
against its remove side, and all are normalized and counted once the pass goes through. -/
structure RecoveryStep (codec : Codec) (l : List (Key × RemovalRecord)) (w : Stores Key)
    (r : Except CarrierError Unit) (w' : Stores Key) : Prop where
  removals : w'.disk.removals = w.disk.removals
  call : w'.faults.call = w.faults.call
  recovered : w'.index.recovered = w.index.recovered
  advanced : w'.index.advancedMs = w.index.advancedMs
  either : ∀ k, w'.disk.elements.get? k = w.disk.elements.get? k ∨
    ∃ record, l.lookup k = some record ∧
      w'.disk.elements.get? k = (w.disk.elements.get? k).map (settle codec record)
  settled : r = .ok () → ∀ k record, l.lookup k = some record →
    w'.disk.elements.get? k = (w.disk.elements.get? k).map (settle codec record)
  counted : r = .ok () → w'.index.accounting =
    ItemChanges.chargeAll w.index.accounting (l.flatMap fun kv => kv.2.items)
  nothing : l = [] → w'.index.accounting = w.index.accounting
  clean : Clean w.faults.recovery →
    (∀ k record held, l.lookup k = some record → w.disk.elements.get? k = some held →
      ∃ z, held.join codec record.asEntry = .ok z) → r = .ok ()
  admits : ∀ p refusal, r ≠ .error (.removalCapacityExhausted p refusal)

lemma recoverAll_outcome (w : Stores Key) {l : List (Key × RemovalRecord)}
    (hl : (l.map Prod.fst).Nodup) :
    RecoveryStep codec l w (outcome (recoverAll codec l) w).1 (outcome (recoverAll codec l) w).2 := by
  induction l generalizing w with
  | nil =>
    exact ⟨rfl, rfl, rfl, rfl, fun _ => Or.inl rfl, fun _ _ _ h => (by cases h), fun _ => rfl,
      fun _ => rfl, fun _ _ => rfl, fun _ _ h => (by cases h)⟩
  | cons kv l ih =>
    obtain ⟨key, record⟩ := kv
    rw [List.map_cons, List.nodup_cons] at hl
    have hout : l.lookup key = none := lookup_eq_none_of_notMem hl.1
    have hcons : ∀ k, k ≠ key → ((key, record) :: l).lookup k = l.lookup k := fun k hk =>
      (lookup_cons_ite k _ l).trans (if_neg hk)
    have hself : ((key, record) :: l).lookup key = some record :=
      (lookup_cons_ite key _ l).trans (if_pos rfl)
    have hstep := @recoverRecord_outcome codec Key _ key w record
    rw [recoverAll]
    generalize hr : outcome (recoverRecord codec key record) w = first at hstep
    obtain ⟨r, v⟩ := first
    rcases r with e | _
    · rw [outcome_bind_of_error hr]
      refine ⟨hstep.removals, hstep.call, by rw [hstep.index], by rw [hstep.index], fun k => ?_,
        fun h => (by cases h), fun h => (by cases h), fun h => (by cases h),
        fun hclean hjoins => ?_, fun p refusal h => hstep.admits p refusal (by cases h; rfl)⟩
      · by_cases hk : k = key
        · subst hk
          exact hstep.either.imp_right fun h => ⟨record, hself, h⟩
        · exact Or.inl (hstep.other k hk)
      · exact absurd (hstep.clean hclean fun held => hjoins key record held hself).1 (by simp)
    · rw [outcome_bind_of_ok hr]
      have hrest := ih v hl.2
      have hv : ∀ k, k ≠ key → v.disk.elements.get? k = w.disk.elements.get? k := hstep.other
      have hkey : (outcome (recoverAll codec l) v).2.disk.elements.get? key =
          (w.disk.elements.get? key).map (settle codec record) := by
        rcases hrest.either key with h | ⟨r', hr', -⟩
        · exact h.trans (hstep.settled rfl)
        · simp [hout] at hr'
      refine ⟨hrest.removals.trans hstep.removals, hrest.call.trans hstep.call,
        hrest.recovered.trans (by rw [hstep.index]), hrest.advanced.trans (by rw [hstep.index]),
        fun k => ?_, fun h k record' hk => ?_, fun h => ?_, fun h => (by cases h),
        fun hclean hjoins => ?_, hrest.admits⟩
      · by_cases hk : k = key
        · subst hk
          exact Or.inr ⟨record, hself, hkey⟩
        · rw [hcons k hk, ← hv k hk]
          exact hrest.either k
      · by_cases hkk : k = key
        · subst hkk
          rw [hself, Option.some.injEq] at hk
          exact hk ▸ hkey
        · rw [hcons k hkk] at hk
          rw [← hv k hkk]
          exact hrest.settled h k record' hk
      · rw [hrest.counted h, hstep.index, ItemChanges.chargeAll, ItemChanges.chargeAll,
          ItemChanges.chargeAll, List.flatMap_cons, List.foldl_append]
      · refine hrest.clean (hstep.clean hclean fun held => hjoins key record held hself).2 ?_
        intro k record' held hk hheld
        have hne : k ≠ key := by
          rintro rfl
          simp [hout] at hk
        exact hjoins k record' held ((hcons k hne).trans hk) ((hv k hne).symm.trans hheld)

/-- What the first call after the store is opened does before its own work. -/
lemma ensureRecovered_outcome (h : w.index.recovered = false) :
    ∃ r w', outcome (ensureRecovered codec) w = (r, w') ∧
      RecoveryStep codec w.disk.removals.entries w r
        { w' with index := { w'.index with recovered := false } } ∧
      w'.index.recovered = r.isOk := by
  rw [ensureRecovered, outcome_bind_of_ok (outcome_get w), if_neg (by simp [h])]
  rcases h0 : w.faults.recovery.headD false with _ | _
  · rw [outcome_bind_of_ok (outcome_recoveryAccess_of_ok h0), outcome_bind_of_ok (outcome_get _)]
    have hstep := @recoverAll_outcome codec Key _ (recoveryTicked w) _ w.disk.removals.nodup
    rw [show (recoveryTicked w).disk.removals.entries = w.disk.removals.entries from rfl]
    generalize hr : outcome (recoverAll codec w.disk.removals.entries) (recoveryTicked w) = pass
      at hstep
    obtain ⟨r, v⟩ := pass
    have hclean : Clean w.faults.recovery →
        (∀ k record held, w.disk.removals.entries.lookup k = some record →
          w.disk.elements.get? k = some held → ∃ z, held.join codec record.asEntry = .ok z) →
        r = .ok () := fun hclean hjoins => hstep.clean hclean.tail hjoins
    have hfalse : v.index.recovered = false := hstep.recovered.trans h
    rcases r with e | _
    · refine ⟨_, _, outcome_bind_of_error hr, ?_, hfalse⟩
      exact ⟨hstep.removals, hstep.call, h.symm, hstep.advanced, hstep.either, hstep.settled,
        hstep.counted, hstep.nothing, hclean, hstep.admits⟩
    · refine ⟨_, _, outcome_bind_of_ok hr, ?_, rfl⟩
      exact ⟨hstep.removals, hstep.call, h.symm, hstep.advanced, hstep.either, hstep.settled,
        hstep.counted, hstep.nothing, hclean, hstep.admits⟩
  · refine ⟨_, _, outcome_bind_of_error (outcome_recoveryAccess_of_fault h0), ?_, h⟩
    refine ⟨rfl, rfl, h.symm, rfl, fun _ => Or.inl rfl, fun h => (by cases h),
      fun h => (by cases h), fun _ => rfl, fun hclean _ => ?_, fun p refusal h => (by cases h)⟩
    rw [hclean.headD] at h0
    cases h0

lemma ensureRecovered_of_recovered (h : w.index.recovered = true) :
    outcome (ensureRecovered codec) w = (.ok (), w) := by
  rw [ensureRecovered, outcome_bind_of_ok (outcome_get w), if_pos h]
  rfl

end Outcomes

end CarrierStore

end Rings
