import Rings.ReplayRelease
import Rings.Retention

/-!
Delivery of a node's relay inbox.

A pass reads the stored elements in order. An element already handed over is retired once it was
taken; one not handed over yet is offered: room for it is reserved in the application inbox, its
transaction is admitted into the receiver window and relay custody, and it is queued. What a pass
is done with it removes at the source, by the add dots, in one removal.
-/

namespace Rings.RelayInbox

open Effect

/-! ### Held messages -/

/-- A held message as its element decodes: the transaction and relay of its payload, and the
instant its holder signed. -/
structure HeldMessage where
  txId : Uuid
  origin : Did
  destination : Did
  relayDestination : Did
  /-- The class of the kind its data carries. -/
  category : MessageCategory
  isCustom : Bool
  sequence : ℕ
  digest : TransactionDigest
  dataLen : ℕ
  /-- What the application message of its data weighs. -/
  weight : ℕ
  tsMs : ℕ
  ttlMs : ℕ
  heldAtMs : ℕ
  /-- The holder's signature verifies as of the hold instant. -/
  holderVerifies : Bool
  /-- Both signatures of the payload verify as of the hold instant. -/
  payloadVerifies : Bool
deriving DecidableEq

namespace HeldMessage

variable (held : HeldMessage)

def isRetiredAt (nowMs : ℕ) : Bool :=
  decide (saturatingAdd u128Max held.heldAtMs maxRelayInboxTtlMs ≤ nowMs)

/-- Whether a proof of `tsMs` and `ttlMs` is live at `nowMs`. -/
def proofLiveAt (nowMs : ℕ) : Bool :=
  decide (held.ttlMs ≤ maxTtlMs ∧ held.tsMs - tsOffsetToleranceMs ≤ nowMs ∧
    nowMs ≤ saturatingAdd u128Max held.tsMs held.ttlMs)

/-- The element witness, judged as of the hold instant. -/
def witnessed (destination : Did) (nowMs : ℕ) : Bool :=
  decide (held.destination = destination ∧ held.relayDestination = destination) &&
    held.isCustom && decide (held.heldAtMs ≤ saturatingAdd u128Max nowMs tsOffsetToleranceMs) &&
    held.holderVerifies && held.proofLiveAt held.heldAtMs && held.payloadVerifies

/-- The admission of the held transaction, out of this node's inbox. -/
def admission (networkId : ℕ) : Admission where
  key := ⟨networkId, held.origin, held.destination, held.category⟩
  sequence := held.sequence
  digest := held.digest
  charge := ⟨held.category, .enforced⟩
  byteCost := held.dataLen
  introducer := .inbox
  spentAtMs := spentAt held.category held.tsMs held.ttlMs

end HeldMessage

/-- One stored element: its add dot, the peer its carrier is kept for and what it decodes to. -/
structure InboxElement where
  dot : EntryDot
  destination : Did
  held : HeldMessage
deriving DecidableEq

namespace InboxElement

variable (e : InboxElement)

def isDeliverableAt (nowMs : ℕ) : Bool :=
  !e.held.isRetiredAt nowMs && e.held.witnessed e.destination nowMs

end InboxElement

def inboxDestination (inbox : Did) : Did := inbox - 1

/-- The elements of a stored inbox that decode, in carrier order. -/
def storedInboxElements (decode : Bytes → Option HeldMessage) (inbox : Entry) :
    List InboxElement :=
  inbox.elements.filterMap fun element =>
    (decode element.1).map fun held => ⟨element.2, inboxDestination inbox.did, held⟩

/-- The removal of an inbox that names `dots`. -/
def removalOf (inbox : Entry) (dots : List EntryDot) : Entry :=
  { Entry.new inbox.did [] .relayMessage with crdt := { EntryCrdt.empty with dots } }

/-! ### Elements handed over -/

inductive InFlight where
  | queued (signal spentAtMs : ℕ)
  | consumed
deriving DecidableEq

inductive RelayConsumption where
  | unknown
  | untaken
  | consumed
deriving DecidableEq

abbrev RelayInFlight := Uuid → Option InFlight

namespace RelayInFlight

/-- Where the element of `txId` stands; a signal that fired is recorded. -/
def poll (table : RelayInFlight) (fired : ℕ → Bool) (txId : Uuid) :
    RelayConsumption × RelayInFlight :=
  match table txId with
  | none => (.unknown, table)
  | some .consumed => (.consumed, table)
  | some (.queued signal _) =>
    if fired signal then (.consumed, Function.update table txId (some .consumed))
    else (.untaken, table)

end RelayInFlight

/-! ### The application inbox -/

def applicationInboxWeight : ℕ := 64 * 1024 * 1024

inductive Claim where
  | unclaimed
  | claimed
  | released
deriving DecidableEq

/-- The queue from core to the application: the messages with their weights and signals. -/
structure ApplicationQueue where
  claim : Claim
  items : List (Uuid × ℕ × Option ℕ)
  weight : ℕ
deriving DecidableEq

namespace ApplicationQueue

variable (q : ApplicationQueue)

def fits (weight : ℕ) : Bool :=
  decide (q.weight = 0 ∨ saturatingAdd usizeMax q.weight weight ≤ applicationInboxWeight)

def tryReserve (weight : ℕ) : Option ApplicationQueue :=
  if q.claim = .claimed ∧ q.fits weight then
    some { q with weight := saturatingAdd usizeMax q.weight weight }
  else none

def unreserve (weight : ℕ) : ApplicationQueue := { q with weight := q.weight - weight }

def fill (txId : Uuid) (weight signal : ℕ) : ApplicationQueue :=
  if q.claim = .claimed then { q with items := q.items ++ [(txId, weight, some signal)] } else q

/-- A dropped reservation leaves the queue as it was. -/
lemma unreserve_tryReserve {q' : ApplicationQueue} {weight : ℕ}
    (h : q.tryReserve weight = some q') : q'.unreserve weight = q := by
  unfold tryReserve at h
  split at h
  · rename_i hroom
    obtain rfl := Option.some.inj h
    have hfits := of_decide_eq_true hroom.2
    have hweight : saturatingAdd usizeMax q.weight weight - weight = q.weight := by
      simp only [saturatingAdd, usizeMax, applicationInboxWeight] at hfits ⊢
      omega
    rw [unreserve]
    simp only [hweight]
  · cases h

end ApplicationQueue

/-! ### The replay store -/

/-- A replay runtime whose accounting agrees with its charges and whose batches are in order. -/
structure ReplayState where
  runtime : Runtime
  orderly : runtime.Orderly

namespace ReplayState

variable (s : ReplayState) {meanwhile : List ReplayEvent}
  (alive : ∀ event ∈ meanwhile, event.stops = false)

def commit (call : ReplayCall) : Option Returned × ReplayState :=
  let joined := s.runtime.step (.call call)
  ((joined.awaitRelease s.runtime.steps meanwhile).1,
    ⟨(joined.awaitRelease s.runtime.steps meanwhile).2,
      (s.orderly.step rfl).awaitRelease s.runtime.steps alive⟩)

/-- One relay admission: the refusal of its batch comes before its own. -/
def admitRelayed (admission : Admission) (now : ReplayInstant) :
    Except ReplayError ReplayAnswer × ReplayState :=
  let (release, after) := s.commit alive (.admitRelayed admission now)
  (release.elim (.error .unscheduled) Returned.result, after)

end ReplayState

inductive ReplayStorage where
  | absent
  | unread
  | loaded (s : ReplayState)

/-! ### One element -/

inductive DeliveryError where
  | storageUnavailable
  | replay (error : ReplayError)
deriving DecidableEq

inductive LocalDelivered where
  | queued
  | deferred
deriving DecidableEq

inductive Offered where
  | retire
  | keep
  | endPass
deriving DecidableEq

def defers : DeliveryError → Bool
  | .storageUnavailable => true
  | .replay .persistence => true
  | .replay (.relayCustodyFull _) => true
  | .replay _ => false

/-- What a node reads and changes when it delivers one element. -/
structure Receiver where
  storage : ReplayStorage
  queue : ApplicationQueue

/-- The moment an element comes up in a pass: the node then, the clock its admission reads, the
signal its taking would fire, whether a runtime runs its admission, and what the replay runtime
does while the admission waits for its batch. -/
structure Moment where
  receiver : Receiver
  inFlight : RelayInFlight
  fired : ℕ → Bool
  networkId : ℕ
  now : ReplayInstant
  signal : ℕ
  scheduled : Bool
  meanwhile : List ReplayEvent
  alive : ∀ event ∈ meanwhile, event.stops = false

namespace Moment

variable (m : Moment)

/-- Deliver the payload of a witnessed element: its data is an application message for this node,
so room is reserved for it first, and its handler has nothing left to do. -/
def deliver (e : InboxElement) : Except DeliveryError LocalDelivered × Receiver :=
  match m.receiver.queue.tryReserve e.held.weight with
  | none => (.ok .deferred, m.receiver)
  | some queue =>
    let dropped := { m.receiver with queue := queue.unreserve e.held.weight }
    if m.scheduled = false then (.error (.replay .unscheduled), dropped)
    else match m.receiver.storage with
    | .absent => (.error .storageUnavailable, dropped)
    | .unread => (.error (.replay .persistence), dropped)
    | .loaded s =>
      match s.admitRelayed m.alive (e.held.admission m.networkId) m.now with
      | (.error error, s) => (.error (.replay error), { dropped with storage := .loaded s })
      | (.ok _, s) =>
        (.ok .queued, ⟨.loaded s, queue.fill e.held.txId e.held.weight m.signal⟩)

/-- Whether the pass offers an element, where `spent` are the origins whose quota is spent. -/
def offers (nowMs : ℕ) (spent : List Did) (e : InboxElement) : Bool :=
  decide ((m.inFlight.poll m.fired e.held.txId).1 = .unknown ∧ e.held.origin ∉ spent) &&
    e.isDeliverableAt nowMs

def offered : Except DeliveryError LocalDelivered → Offered
  | .ok .queued => .keep
  | .ok .deferred => .endPass
  | .error (.replay (.quota _ _ _)) => .keep
  | .error error => if defers error then .endPass else .retire

/-- The origins whose quota is spent, once the pass offered an element. -/
def spentAfter (spent : List Did) (origin : Did) :
    Except DeliveryError LocalDelivered → List Did
  | .error (.replay (.quota _ _ _)) => origin :: spent
  | _ => spent

def visit (nowMs : ℕ) (spent : List Did) (e : InboxElement) : Offered × List Did :=
  match (m.inFlight.poll m.fired e.held.txId).1 with
  | .consumed => (.retire, spent)
  | .untaken => (.keep, spent)
  | .unknown =>
    if e.held.origin ∈ spent ∨ e.isDeliverableAt nowMs = false then (.keep, spent)
    else (offered (m.deliver e).1, spentAfter spent e.held.origin (m.deliver e).1)

end Moment

/-! ### One pass -/

/-- The dots a pass retires, where `moments` are the moments its elements come up at. -/
def retiredFrom (nowMs : ℕ) (moments : ℕ → Moment) (index : ℕ) (spent : List Did) :
    List InboxElement → List EntryDot
  | [] => []
  | e :: elements =>
    match (moments index).visit nowMs spent e with
    | (.retire, spent) => e.dot :: retiredFrom nowMs moments (index + 1) spent elements
    | (.keep, spent) => retiredFrom nowMs moments (index + 1) spent elements
    | (.endPass, _) => []

/-- The removal a pass over `inbox` sends to its source, if it is done with any element. -/
def drain (decode : Bytes → Option HeldMessage) (nowMs : ℕ) (moments : ℕ → Moment)
    (inbox : Entry) : Option Entry :=
  let retired := retiredFrom nowMs moments 0 [] (storedInboxElements decode inbox)
  if retired.isEmpty then none else some (removalOf inbox retired)

/-- The elements a pass offers, each at its moment. -/
def offeredFrom (nowMs : ℕ) (moments : ℕ → Moment) (index : ℕ) (spent : List Did) :
    List InboxElement → List (Moment × InboxElement)
  | [] => []
  | e :: elements =>
    let m := moments index
    let rest := match m.visit nowMs spent e with
      | (.endPass, _) => []
      | (_, spent) => offeredFrom nowMs moments (index + 1) spent elements
    if m.offers nowMs spent e then (m, e) :: rest else rest

end Rings.RelayInbox
