import Rings.BTreeMap
import Rings.Did

/-!
The cardinality bound that queue and session reducers share: a global count and one for each
peer.

Peers without a reservation have no entry, so a quota is read off the numbers its peers hold.
-/

namespace Rings

instance : LinearOrder Did := LinearOrder.lift' BitVec.toNat fun _ _ => BitVec.eq_of_toNat_eq

/-- Why a bounded queue refuses an item. -/
inductive OnionQueueAdmissionReason
  | globalFull | peerFull | counterOverflow | linkDown
  deriving DecidableEq

/-- The refusal is a bound, which a later completion lifts. -/
def OnionQueueAdmissionReason.isFull : OnionQueueAdmissionReason → Bool
  | .globalFull | .peerFull => true
  | .counterOverflow | .linkDown => false

structure PeerQuota where
  total : ℕ
  perPeer : BTreeMap Did ℕ
  maxTotal : ℕ
  maxPerPeer : ℕ

namespace PeerQuota

def new (maxTotal maxPerPeer : ℕ) : PeerQuota := ⟨0, .empty, maxTotal, maxPerPeer⟩

def peerTotal (q : PeerQuota) (peer : Did) : ℕ := (q.perPeer.get? peer).getD 0

/-- The counts after one more reservation for `peer`, within both bounds. -/
def successor (q : PeerQuota) (peer : Did) : Except OnionQueueAdmissionReason (ℕ × ℕ) :=
  match checkedAdd usizeMax q.total 1, checkedAdd usizeMax (q.peerTotal peer) 1 with
  | some nextTotal, some nextPeer =>
    if nextTotal > q.maxTotal then .error .globalFull
    else if nextPeer > q.maxPerPeer then .error .peerFull
    else .ok (nextTotal, nextPeer)
  | _, _ => .error .counterOverflow

def canReserve (q : PeerQuota) (peer : Did) : Except OnionQueueAdmissionReason Unit :=
  (q.successor peer).map fun _ => ()

def reserve (q : PeerQuota) (peer : Did) : Except OnionQueueAdmissionReason PeerQuota :=
  (q.successor peer).map fun next =>
    { q with total := next.1, perPeer := q.perPeer.insert peer next.2 }

/-- Release one unit; a quota that does not hold it is unchanged. -/
def release (q : PeerQuota) (peer : Did) : PeerQuota × Bool :=
  match q.perPeer.get? peer with
  | none => (q, false)
  | some peerTotal =>
    if q.total = 0 ∨ peerTotal = 0 then (q, false)
    else
      let nextPeer := peerTotal - 1
      let perPeer :=
        if nextPeer = 0 then q.perPeer.remove peer else q.perPeer.insert peer nextPeer
      ({ q with total := q.total - 1, perPeer := perPeer }, true)

/-- Release everything one peer holds. -/
def releasePeer (q : PeerQuota) (peer : Did) : PeerQuota × Option ℕ :=
  match q.perPeer.get? peer with
  | none => (q, none)
  | some peerTotal =>
    if q.total < peerTotal then (q, none)
    else
      ({ q with total := q.total - peerTotal, perPeer := q.perPeer.remove peer },
        some peerTotal)

/-- The quota's entries are the numbers `held` of the peers that hold something. -/
def Counts (q : PeerQuota) (held : Did → ℕ) : Prop :=
  ∀ p, q.perPeer.get? p = if held p = 0 then none else some (held p)

variable {q q' : PeerQuota} {held held' : Did → ℕ} {peer : Did}

lemma counts_new (maxTotal maxPerPeer : ℕ) : (new maxTotal maxPerPeer).Counts fun _ => 0 :=
  fun _ => rfl

lemma Counts.congr (h : q.Counts held) (heq : ∀ p, held' p = held p) : q.Counts held' := by
  intro p
  rw [heq p]
  exact h p

lemma Counts.peerTotal (h : q.Counts held) (p : Did) : q.peerTotal p = held p := by
  rw [PeerQuota.peerTotal, h p]
  split
  · rename_i hzero
    exact hzero.symm
  · rfl

lemma reserve_cases (h : q.reserve peer = .ok q') :
    q.total + 1 ≤ q.maxTotal ∧ q.peerTotal peer + 1 ≤ q.maxPerPeer ∧
      q' = { q with
        total := q.total + 1
        perPeer := q.perPeer.insert peer (q.peerTotal peer + 1) } := by
  rw [reserve, successor] at h
  split at h
  · rename_i nextTotal nextPeer htotal hpeer
    rw [checkedAdd] at htotal hpeer
    split at htotal <;> cases htotal
    split at hpeer <;> cases hpeer
    split at h
    · cases h
    split at h
    · cases h
    · cases h
      exact ⟨by omega, by omega, rfl⟩
  · cases h

/-- A reservation counts one more for its peer. -/
lemma Counts.reserve (h : q.Counts held) (hq : q.reserve peer = .ok q')
    (heq : ∀ p, held' p = if p = peer then held p + 1 else held p) : q'.Counts held' := by
  obtain ⟨-, -, rfl⟩ := reserve_cases hq
  intro p
  rw [BTreeMap.get?_insert, heq p]
  by_cases hp : p = peer
  · subst hp
    simp [h.peerTotal]
  · simp [hp, h p]

/-- A release of something held counts one less for its peer. -/
lemma Counts.release (h : q.Counts held) (hpos : 0 < held peer) (htotal : 0 < q.total) :
    ∃ q', q.release peer = (q', true) ∧ q'.total = q.total - 1 ∧
      q'.maxTotal = q.maxTotal ∧ q'.maxPerPeer = q.maxPerPeer ∧
      ∀ held' : Did → ℕ, (∀ p, held' p = if p = peer then held p - 1 else held p) →
        q'.Counts held' := by
  have hget := h peer
  rw [if_neg hpos.ne'] at hget
  rw [PeerQuota.release, hget]
  dsimp only
  rw [if_neg (by omega)]
  refine ⟨_, rfl, rfl, rfl, rfl, fun held' heq p => ?_⟩
  rw [heq p]
  dsimp only
  by_cases hp : p = peer
  · subst hp
    by_cases hone : held p - 1 = 0
    · simp [hone, BTreeMap.get?_remove]
    · simp [hone, BTreeMap.get?_insert]
  · split
    · simp [hp, BTreeMap.get?_remove, h p]
    · simp [hp, BTreeMap.get?_insert, h p]

lemma Counts.releasePeer (h : q.Counts held) (hle : held peer ≤ q.total) :
    (q.releasePeer peer).1.total = q.total - held peer ∧
      (q.releasePeer peer).1.maxTotal = q.maxTotal ∧
      (q.releasePeer peer).1.maxPerPeer = q.maxPerPeer ∧
      ∀ held' : Did → ℕ, (∀ p, held' p = if p = peer then 0 else held p) →
        (q.releasePeer peer).1.Counts held' := by
  have hget := h peer
  rw [PeerQuota.releasePeer]
  split at hget
  · rename_i hzero
    rw [hget]
    refine ⟨by rw [hzero]; rfl, rfl, rfl, fun held' heq => h.congr fun p => ?_⟩
    rw [heq p]
    split
    · rename_i hp
      rw [hp, hzero]
    · rfl
  · rw [hget]
    dsimp only
    rw [if_neg (Nat.not_lt.2 hle)]
    refine ⟨rfl, rfl, rfl, fun held' heq p => ?_⟩
    rw [BTreeMap.get?_remove, heq p]
    by_cases hp : p = peer
    · simp [hp]
    · simp [hp, h p]

end PeerQuota

end Rings
