import Rings.PeerQuota
import Rings.BTreeMap
import Rings.PeerStory
import Mathlib.Data.PNat.Basic

/-!
The application inbox: the one queue from core to the application.

Messages and peer facts share one order. Messages hold a bounded weight, and one that does not fit
is dropped; facts are kept, but an unread admission is withdrawn with the retirement that ends it.
Room for a stored message is reserved before the message is queued, and the taking of such a message
fires a signal.
-/

namespace Rings.AppInbox

open PeerStory (Fact View)

def applicationInboxWeight : ℕ := 64 * 1024 * 1024

inductive Claim
  | unclaimed
  | claimed
  | released
deriving DecidableEq

inductive Refusal
  | unread
  | full

/-- The body of a message handed to the application: bytes, a handshake, or a frame of a stream with
its ciphertext. -/
inductive ApplicationData (H F : Type)
  | custom (bytes : List UInt8)
  | e2eHandshakeRequest (request : H)
  | e2eHandshakeResponse (response : H)
  | e2eStreamFrame (frame : F) (ciphertext : List UInt8)

def ApplicationData.dataLen {H F : Type} : ApplicationData H F → ℕ
  | .custom bytes => bytes.length
  | .e2eHandshakeRequest _ | .e2eHandshakeResponse _ => 0
  | .e2eStreamFrame _ ciphertext => ciphertext.length

structure ApplicationMessage (H F : Type) where
  txId : Uuid
  sender : Did
  data : ApplicationData H F

/-- The bytes a message retains; `size` is its own size, the same for all. -/
def ApplicationMessage.weight {H F : Type} (size : ℕ+) (m : ApplicationMessage H F) : ℕ :=
  saturatingAdd usizeMax size m.data.dataLen

inductive SwarmEvent
  | peerAdmitted (peer : Did)
  | peerRetired (peer : Did)
  | messageDropped (peer : Did)
deriving DecidableEq

namespace SwarmEvent

def peer : SwarmEvent → Did
  | peerAdmitted peer | peerRetired peer | messageDropped peer => peer

def fact : SwarmEvent → Fact
  | peerAdmitted _ => .admitted
  | peerRetired _ => .retired
  | messageDropped _ => .dropped

end SwarmEvent

inductive ApplicationDelivery (H F : Type)
  | message (m : ApplicationMessage H F)
  | event (e : SwarmEvent)

/-- One queued item, with the number of the signal its taking fires. -/
structure Queued (H F : Type) where
  delivery : ApplicationDelivery H F
  weight : ℕ
  consumed : Option ℕ

/-- The facts of one peer still queued, by position. -/
structure PeerFacts where
  lifecycle : List (ℕ × Bool)
  drops : List ℕ
deriving DecidableEq

namespace PeerFacts

def empty : PeerFacts := ⟨[], []⟩

def lastLifecycle (f : PeerFacts) : Option ℕ := f.lifecycle.getLast?.map (·.1)

def isEmpty (f : PeerFacts) : Bool := f.lifecycle.isEmpty && f.drops.isEmpty

end PeerFacts

/-- The queue. `appended` counts the items ever appended. -/
structure Queue (H F : Type) where
  claim : Claim
  items : BTreeMap ℕ (Queued H F)
  next : ℕ
  facts : BTreeMap Did PeerFacts
  weight : ℕ
  dropped : ℕ
  appended : ℕ

namespace Queue

variable {H F : Type}

def new : Queue H F := ⟨.unclaimed, .empty, 0, .empty, 0, 0, 0⟩

variable (q : Queue H F)

def fits (weight : ℕ) : Bool :=
  q.weight = 0 ∨ saturatingAdd usizeMax q.weight weight ≤ applicationInboxWeight

def admitWeight (weight : ℕ) : Except Refusal (Queue H F) :=
  if q.claim ≠ .claimed then .error .unread
  else if !q.fits weight then .error .full
  else .ok { q with weight := saturatingAdd usizeMax q.weight weight }

def append (queued : Queued H F) : Queue H F :=
  { q with
    items := q.items.insert q.next queued
    next := saturatingAdd u64Max q.next 1
    appended := q.appended + 1 }

def push (message : ApplicationMessage H F) (weight : ℕ) (consumed : Option ℕ) : Queue H F :=
  if q.claim = .claimed then q.append ⟨.message message, weight, consumed⟩ else q

/-- The facts of `peer`, an empty record where it has none. -/
def factsOf (peer : Did) : PeerFacts := (q.facts.get? peer).getD .empty

/-- The facts of `peer` are `facts` from now on, or forgotten where there are none. -/
def setFacts (peer : Did) (facts : PeerFacts) : Queue H F :=
  { q with
    facts := if facts.isEmpty then q.facts.remove peer else q.facts.insert peer facts }

/-- Append a fact and index it. -/
def appendFact (event : SwarmEvent) : Queue H F :=
  let facts := q.factsOf event.peer
  let q' := q.append ⟨.event event, 0, none⟩
  { q' with
    facts := q'.facts.insert event.peer <| match event with
      | .peerAdmitted _ => { facts with lifecycle := facts.lifecycle ++ [(q.next, true)] }
      | .peerRetired _ => { facts with lifecycle := facts.lifecycle ++ [(q.next, false)] }
      | .messageDropped _ => { facts with drops := facts.drops ++ [q.next] } }

/-- Withdraw the unread admission at `admittedAt` and the drops after it. -/
def withdraw (peer : Did) (admittedAt : ℕ) : Queue H F :=
  let facts := q.factsOf peer
  let withdrawn := facts.drops.filter (· > admittedAt)
  let q := q.setFacts peer
    { lifecycle := facts.lifecycle.dropLast, drops := facts.drops.filter (· < admittedAt) }
  { q with items := withdrawn.foldl BTreeMap.remove (q.items.remove admittedAt) }

def record (event : SwarmEvent) : Queue H F :=
  if q.claim = .released then q
  else
    let facts := q.factsOf event.peer
    match event with
    | .peerRetired peer =>
      match facts.lifecycle.getLast? with
      | some (admittedAt, true) => q.withdraw peer admittedAt
      | _ => q.appendFact event
    | .messageDropped _ =>
      let since := facts.lastLifecycle
      if facts.drops.getLast?.any fun last => since.all (last > ·) then q
      else q.appendFact event
    | .peerAdmitted _ => q.appendFact event

def take : Option (Queued H F) × Queue H F :=
  match q.items.first? with
  | none => (none, q)
  | some (at_, queued) =>
    let q := { q with items := q.items.remove at_, weight := q.weight - queued.weight }
    match queued.delivery with
    | .message _ => (some queued, q)
    | .event event =>
      match q.facts.get? event.peer with
      | none => (some queued, q)
      | some facts =>
        (some queued, q.setFacts event.peer
          { lifecycle := facts.lifecycle.filter (·.1 ≠ at_), drops := facts.drops.filter (· ≠ at_) })

def release : Queue H F :=
  { q with claim := .released, items := .empty, facts := .empty, weight := 0 }

end Queue

inductive Delivered
  | queued
  | discarded
  | dropped

/-- The queue with the rooms reserved in it, and what happened: the messages filled into rooms in
the order of their signals, the messages queued, the items taken, the signals fired and the events
announced. -/
structure Inbox (H F : Type) where
  queue : Queue H F
  rooms : List (ApplicationMessage H F)
  filled : List (ApplicationMessage H F)
  pushed : List (Queued H F)
  taken : List (Queued H F)
  fired : List ℕ
  announced : List SwarmEvent

/-- A call of either end of the inbox. -/
inductive InboxCall (H F : Type)
  | claim
  | announce (event : SwarmEvent)
  | deliver (message : ApplicationMessage H F)
  | tryReserve (message : ApplicationMessage H F)
  | fill (room : ℕ)
  | dropRoom (room : ℕ)
  | take
  | release

/-- What `log` says of `peer`. -/
def viewOf (peer : Did) (log : List SwarmEvent) : View :=
  ((log.filter (·.peer = peer)).map (·.fact)).foldl View.read .start

namespace Inbox

variable {H F : Type}

def new : Inbox H F := ⟨.new, [], [], [], [], [], []⟩

variable (size : ℕ+) (s : Inbox H F)

/-- `claim`, which fails but for the first time. -/
def claim : Inbox H F :=
  if s.queue.claim ≠ .unclaimed then s else { s with queue := { s.queue with claim := .claimed } }

/-- `announce`. Core admits and retires a peer in turn, and tells a drop of an admitted one. -/
def announce (event : SwarmEvent) : Inbox H F :=
  if (viewOf event.peer s.announced).allows event.fact then
    { s with queue := s.queue.record event, announced := s.announced ++ [event] }
  else s

def deliver (message : ApplicationMessage H F) : Delivered × Inbox H F :=
  let weight := message.weight size
  match s.queue.admitWeight weight with
  | .ok queue =>
    (.queued, { s with
      queue := queue.push message weight none
      pushed := s.pushed ++ [⟨.message message, weight, none⟩] })
  | .error .unread => (.discarded, s)
  | .error .full =>
    (.dropped, { s with
      queue := { s.queue with dropped := saturatingAdd u64Max s.queue.dropped 1 } })

def tryReserve (message : ApplicationMessage H F) : Inbox H F :=
  match s.queue.admitWeight (message.weight size) with
  | .ok queue => { s with queue := queue, rooms := s.rooms ++ [message] }
  | .error _ => s

/-- `fill`, with the next signal; the room's weight passes to the queued message. -/
def fill (room : ℕ) : Inbox H F :=
  match s.rooms[room]? with
  | none => s
  | some message =>
    { s with
      queue := s.queue.push message (message.weight size) (some s.filled.length)
      rooms := s.rooms.eraseIdx room
      filled := s.filled ++ [message]
      pushed := if s.queue.claim = .claimed then
        s.pushed ++ [⟨.message message, message.weight size, some s.filled.length⟩] else s.pushed }

/-- The drop of a room returns the weight it holds. -/
def dropRoom (room : ℕ) : Inbox H F :=
  match s.rooms[room]? with
  | none => s
  | some message =>
    { s with
      queue := { s.queue with weight := s.queue.weight - message.weight size }
      rooms := s.rooms.eraseIdx room }

def take : Inbox H F :=
  match s.queue.take with
  | (none, queue) => { s with queue := queue }
  | (some queued, queue) =>
    { s with
      queue := queue
      taken := s.taken ++ [queued]
      fired := s.fired ++ queued.consumed.toList }

def step : InboxCall H F → Inbox H F
  | .claim => s.claim
  | .announce event => s.announce event
  | .deliver message => (s.deliver size message).2
  | .tryReserve message => s.tryReserve size message
  | .fill room => s.fill size room
  | .dropRoom room => s.dropRoom size room
  | .take => s.take
  | .release => { s with queue := s.queue.release }

def run (calls : List (InboxCall H F)) : Inbox H F := calls.foldl (step size) s

end Inbox

end Rings.AppInbox
