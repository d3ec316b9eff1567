import Rings.OnionReplay
import Rings.QuantumLedger
import Rings.PeerQuota
import Mathlib.Data.Finset.Sort
import Mathlib.Data.PNat.Basic

/-!
Admission of onion layers at one hop: the process epoch, the monotone clock, the replay store and
the unit budgets of each sender and of the hop.

Every step advances the clock to the greatest instant seen, drops the filters that have passed,
and on entering a new quantum releases the ledgers that have drained.
-/

namespace Rings.Onion

abbrev OnionProcessEpoch := BitVec 128

def onionAdmissionGlobalUnits : ℕ := 64 * onionAdmissionSenderUnits

/-- Evidence of one charge: the arrival of its cell and the epoch of the state that took it. -/
structure OnionAdmissionCharge where
  arrivalMs : ℕ
  epoch : OnionProcessEpoch
  deriving DecidableEq

structure OnionAdmissionLink where
  did : Did
  generation : ℕ
  deriving DecidableEq

structure OnionAdmissionLayer where
  epoch : OnionProcessEpoch
  expiry : OnionExpiry
  tag : OnionReplayNonce
  deriving DecidableEq

inductive OnionChargeRejection
  | linkNotLive | senderBudget | globalBudget
  deriving DecidableEq

inductive OnionAdmissionRejection
  | staleEpoch | outsideWindow | replayed
  deriving DecidableEq

structure SenderLedger where
  ledger : QuantumLedger
  live : Finset ℕ
  deriving DecidableEq

/-- The ledger of a sender without load or link. -/
def SenderLedger.fresh : SenderLedger := ⟨.default, ∅⟩

def SenderLedger.isReleasableAt (l : SenderLedger) (quantum : ℕ) : Bool :=
  decide (l.live = ∅) && l.ledger.load quantum == 0

structure OnionAdmissionState where
  epoch : OnionProcessEpoch
  clockMs : ℕ
  sweptQuantum : ℕ
  replay : ReplayStore
  global : QuantumLedger
  capacity : ℕ
  senders : BTreeMap Did SenderLedger

namespace OnionAdmissionState

def new (epoch : OnionProcessEpoch) (filterKey : OnionReplayFilterKey)
    (linkRegistryCapacity : ℕ) : OnionAdmissionState :=
  ⟨epoch, 0, 0, .new filterKey, .default, min (linkRegistryCapacity * 2) u64Max, .empty⟩

/-- The current arrival quantum. -/
def quantum (s : OnionAdmissionState) : ℕ := s.clockMs / onionExpiryQuantumMs

/-- Advance the monotone clock, drop the filters that have passed, and on entering a new quantum
release the ledgers that have drained. -/
def advance (s : OnionAdmissionState) (nowMs : ℕ) : OnionAdmissionState :=
  let clockMs := max s.clockMs nowMs
  let quantum := clockMs / onionExpiryQuantumMs
  if quantum > s.sweptQuantum then
    { s with
      clockMs := clockMs
      replay := s.replay.forgetThrough clockMs
      senders := s.senders.retain fun _ sender => !sender.isReleasableAt quantum
      sweptQuantum := quantum }
  else { s with clockMs := clockMs, replay := s.replay.forgetThrough clockMs }

def isLive (s : OnionAdmissionState) (link : OnionAdmissionLink) : Bool :=
  (s.senders.get? link.did).any (link.generation ∈ ·.live)

def liveLinkCount (s : OnionAdmissionState) : ℕ := s.senders.sumBy fun _ sender => sender.live.card

/-- Make `link` live, creating its sender's ledger if it has none; says whether the table had
room. A live link is opened again without effect. -/
def linkOpened (s : OnionAdmissionState) (nowMs : ℕ) (link : OnionAdmissionLink) :
    OnionAdmissionState × Bool :=
  let s := s.advance nowMs
  match s.senders.get? link.did with
  | some sender =>
    if link.generation ∈ sender.live then (s, true)
    else if s.liveLinkCount < s.capacity then
      let sender := { sender with live := insert link.generation sender.live }
      ({ s with senders := s.senders.insert link.did sender }, true)
    else (s, false)
  | none =>
    if s.liveLinkCount < s.capacity ∧ s.senders.entries.length < s.capacity then
      let sender := { SenderLedger.fresh with live := {link.generation} }
      ({ s with senders := s.senders.insert link.did sender }, true)
    else (s, false)

/-- Make `link` no longer live, and release its sender's ledger if that leaves it releasable. -/
def linkClosed (s : OnionAdmissionState) (nowMs : ℕ) (link : OnionAdmissionLink) :
    OnionAdmissionState :=
  let s := s.advance nowMs
  match s.senders.get? link.did with
  | none => s
  | some sender =>
    let sender := { sender with live := sender.live.erase link.generation }
    if sender.isReleasableAt s.quantum then { s with senders := s.senders.remove link.did }
    else { s with senders := s.senders.insert link.did sender }

/-- The generations of each sender in a snapshot. -/
def snapshotOf (live : List OnionAdmissionLink) : BTreeMap Did (Finset ℕ) :=
  live.foldl (fun m link =>
    m.insert link.did (insert link.generation ((m.get? link.did).getD ∅))) .empty

/-- The links of one sender, by generation. -/
def linksOf (did : Did) (generations : Finset ℕ) : List OnionAdmissionLink :=
  (generations.sort (· ≤ ·)).map fun generation => ⟨did, generation⟩

/-- Open links in turn, collecting those the table refuses. -/
def openAll (s : OnionAdmissionState) (nowMs : ℕ) (links : List OnionAdmissionLink) :
    OnionAdmissionState × List OnionAdmissionLink :=
  links.foldl (fun acc link =>
    let opened := acc.1.linkOpened nowMs link
    (opened.1, if opened.2 then acc.2 else acc.2 ++ [link])) (s, [])

/-- Make the live links equal the snapshot `live`, up to the refusals, which are returned: the
links that are absent are closed, then the snapshot is opened in the order of its senders. -/
def reconcile (s : OnionAdmissionState) (nowMs : ℕ) (live : List OnionAdmissionLink) :
    OnionAdmissionState × List OnionAdmissionLink :=
  let s := s.advance nowMs
  let snapshot := snapshotOf live
  let absent := s.senders.entries.flatMap fun (did, sender) =>
    linksOf did (sender.live.filter fun generation =>
      generation ∉ (snapshot.get? did).getD ∅)
  let closed := absent.foldl (fun s link => s.linkClosed nowMs link) s
  closed.openAll nowMs (snapshot.entries.flatMap fun (did, generations) =>
    linksOf did generations)

/-- Charge a cell received on `link` to its sender and to the hop, both or neither. -/
def chargeUnits (s : OnionAdmissionState) (nowMs : ℕ) (link : OnionAdmissionLink) (units : ℕ+) :
    OnionAdmissionState × Except OnionChargeRejection OnionAdmissionCharge :=
  let s := s.advance nowMs
  match (s.senders.get? link.did).filter (link.generation ∈ ·.live) with
  | none => (s, .error .linkNotLive)
  | some sender =>
    match sender.ledger.charged s.quantum units onionAdmissionSenderUnits with
    | none => (s, .error .senderBudget)
    | some chargedSender =>
      match s.global.charged s.quantum units onionAdmissionGlobalUnits with
      | none => (s, .error .globalBudget)
      | some chargedGlobal =>
        let sender := { sender with ledger := chargedSender }
        ({ s with senders := s.senders.insert link.did sender, global := chargedGlobal },
          .ok ⟨s.clockMs, s.epoch⟩)

/-- Admit a charged layer, or reject it. The window is judged at the token's arrival. -/
def tryAdmit (keccak256 : List Byte → Vector Byte 32) (s : OnionAdmissionState) (nowMs : ℕ)
    (charge : OnionAdmissionCharge) (layer : OnionAdmissionLayer) :
    OnionAdmissionState × Except OnionAdmissionRejection Unit :=
  let s := s.advance nowMs
  if layer.epoch ≠ s.epoch ∨ charge.epoch ≠ s.epoch then (s, .error .staleEpoch)
  else if !layer.expiry.admissibleAt charge.arrivalMs || layer.expiry.hasPassedAt s.clockMs then
    (s, .error .outsideWindow)
  else
    let probe := s.replay.probe keccak256 layer.tag
    if s.replay.contains layer.expiry probe then (s, .error .replayed)
    else ({ s with replay := s.replay.insert layer.expiry probe }, .ok ())

/-- The epoch reset: a fresh epoch with the same live links and nothing else; none when the epoch
is the current one. -/
def renew (s : OnionAdmissionState) (epoch : OnionProcessEpoch)
    (filterKey : OnionReplayFilterKey) : Option OnionAdmissionState :=
  if epoch = s.epoch then none
  else
    let kept := s.senders.retain fun _ sender => decide (sender.live ≠ ∅)
    some ⟨epoch, 0, 0, .new filterKey, .default, s.capacity,
      kept.mapValues fun sender => { sender with ledger := .default }⟩

end OnionAdmissionState

end Rings.Onion
