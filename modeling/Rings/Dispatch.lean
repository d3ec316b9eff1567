import Rings.PeerQuota
import Mathlib.Data.List.Count
import Mathlib.Tactic

/-!
The dispatch queue of one namespace.

The reader of the inbox submits envelopes and link facts and never waits; one worker takes the
items in order. Envelopes are bounded by count and by bytes, queued or in dispatch; facts are
not. A refused envelope of an admitted peer is told as a `Dropped` fact, at most one of which
waits per peer.
-/

namespace Rings.Dispatch

def namespaceQueueCapacity : ℕ := 256

/-- Encoded bytes one namespace may hold: a quarter of the inbox of the core. -/
def namespaceQueueWeight : ℕ := 64 * 1024 * 1024 / 4

/-- A fact about the link to one peer. -/
inductive LinkFact
  | admitted (peer : Did)
  | retired (peer : Did)
  | dropped (peer : Did)
  deriving DecidableEq

inductive Queued
  | envelope (sender : Did) (payload : List (Fin 256)) (weight : ℕ)
  | fact (fact : LinkFact)
  deriving DecidableEq

namespace Queued

/-- The encoded bytes an item holds. -/
def weight : Queued → ℕ
  | envelope _ _ weight => weight
  | fact _ => 0

def isEnvelope : Queued → Bool
  | envelope .. => true
  | fact _ => false

/-- An envelope of `peer`, or its admission: what a later loss of the peer must follow. -/
def concerns (peer : Did) : Queued → Bool
  | envelope sender _ _ => sender = peer
  | fact (.admitted admitted) => admitted = peer
  | fact _ => false

end Queued

/-- Whether a queue holding `held` bytes admits an envelope of `weight` more: always when it
holds none. -/
def admits (held weight : ℕ) : Bool := held = 0 || held + weight ≤ namespaceQueueWeight

structure Held where
  envelopes : ℕ
  weight : ℕ
  dropped : Finset Did

namespace Held

def admits (h : Held) (weight : ℕ) : Bool :=
  h.envelopes < namespaceQueueCapacity && Dispatch.admits h.weight weight

def take (h : Held) (weight : ℕ) : Held :=
  { h with envelopes := h.envelopes + 1, weight := h.weight + weight }

def release (h : Held) (weight : ℕ) : Held :=
  { h with envelopes := h.envelopes - 1, weight := h.weight - weight }

/-- Mark a drop from `peer`; `true` when no `Dropped` of the peer was waiting. -/
def markDropped (h : Held) (peer : Did) : Held × Bool :=
  ({ h with dropped := insert peer h.dropped }, peer ∉ h.dropped)

def unmarkDropped (h : Held) (peer : Did) : Held :=
  { h with dropped := h.dropped.erase peer }

end Held

/-- The worker waits for an item, has taken one out of the queue, or dispatches it. -/
inductive Worker
  | waiting
  | took (item : Queued)
  | dispatching (item : Queued)
  deriving DecidableEq

structure NamespaceQueue where
  queue : List Queued
  held : Held
  worker : Worker

namespace NamespaceQueue

def empty : NamespaceQueue := ⟨[], ⟨0, 0, ∅⟩, .waiting⟩

def send (q : NamespaceQueue) (item : Queued) : NamespaceQueue :=
  { q with queue := q.queue ++ [item] }

/-- Queue `Dropped peer` unless one already waits. -/
def tellDropped (q : NamespaceQueue) (peer : Did) : NamespaceQueue :=
  let (held, told) := q.held.markDropped peer
  let marked := { q with held := held }
  if told then marked.send (.fact (.dropped peer)) else marked

/-- Queue an envelope, or drop it and tell the namespace of a drop from an admitted peer. -/
def submit (q : NamespaceQueue) (sender : Did) (payload : List (Fin 256)) (weight : ℕ)
    (admitted : Bool) : NamespaceQueue :=
  if !q.held.admits weight then
    if admitted then q.tellDropped sender else q
  else { q with held := q.held.take weight }.send (.envelope sender payload weight)

/-- Queue a link fact, outside both bounds. -/
def submitLinkFact (q : NamespaceQueue) (fact : LinkFact) : NamespaceQueue :=
  match fact with
  | .dropped peer => q.tellDropped peer
  | fact => q.send (.fact fact)

def next (q : NamespaceQueue) : NamespaceQueue :=
  match q.worker, q.queue with
  | .waiting, item :: rest => { q with queue := rest, worker := .took item }
  | _, _ => q

/-- The worker hands its item to the protocol, unmarking a `Dropped` as it is taken. -/
def dispatch (q : NamespaceQueue) : NamespaceQueue :=
  match q.worker with
  | .took item =>
    { q with
      worker := .dispatching item
      held := match item with
        | .fact (.dropped peer) => q.held.unmarkDropped peer
        | _ => q.held }
  | _ => q

def finish (q : NamespaceQueue) : NamespaceQueue :=
  match q.worker with
  | .dispatching item =>
    { q with
      worker := .waiting
      held := match item with
        | .envelope _ _ weight => q.held.release weight
        | .fact _ => q.held }
  | _ => q

/-- What was sent to the worker and not yet handed to the protocol. -/
def waiting (q : NamespaceQueue) : List Queued :=
  match q.worker with
  | .took item => item :: q.queue
  | _ => q.queue

end NamespaceQueue

/-! ### Runs -/

/-- What can happen to the queue: the reader submits, or the worker moves. -/
inductive DispatchEvent
  | submit (sender : Did) (payload : List (Fin 256)) (weight : ℕ) (admitted : Bool)
  | submitLinkFact (fact : LinkFact)
  | next
  | dispatch
  | finish

def NamespaceQueue.step (q : NamespaceQueue) : DispatchEvent → NamespaceQueue
  | .submit sender payload weight admitted => q.submit sender payload weight admitted
  | .submitLinkFact fact => q.submitLinkFact fact
  | .next => q.next
  | .dispatch => q.dispatch
  | .finish => q.finish

/-- The peer whose message is lost by an event: a refused envelope of an admitted peer, or a drop
in the core. -/
def NamespaceQueue.loses (q : NamespaceQueue) : DispatchEvent → Option Did
  | .submit sender _ weight admitted =>
    if !q.held.admits weight && admitted then some sender else none
  | .submitLinkFact (.dropped peer) => some peer
  | _ => none

/-- What the protocol observes at an event. -/
def NamespaceQueue.observes (q : NamespaceQueue) : DispatchEvent → List Queued
  | .dispatch => match q.worker with
    | .took item => [item]
    | _ => []
  | _ => []

/-- A queue with what happened to it: the items that entered, those the protocol observed, and each
loss with the number of items that had entered before it. -/
structure History where
  queue : NamespaceQueue
  entered : List Queued
  observed : List Queued
  losses : List (Did × ℕ)

namespace History

def start : History := ⟨.empty, [], [], []⟩

/-- The items that enter are those the event puts at the end of the queue. -/
def step (h : History) (e : DispatchEvent) : History :=
  let next := h.queue.step e
  ⟨next,
    h.entered ++ match e with
      | .submit .. | .submitLinkFact _ => next.queue.drop h.queue.queue.length
      | _ => [],
    h.observed ++ h.queue.observes e,
    h.losses ++ ((h.queue.loses e).map fun peer => (peer, h.entered.length)).toList⟩

def run (events : List DispatchEvent) : History := events.foldl step start

lemma run_concat (events : List DispatchEvent) (e : DispatchEvent) :
    run (events ++ [e]) = (run events).step e := by
  simp [run, List.foldl_append]

end History

end Rings.Dispatch
