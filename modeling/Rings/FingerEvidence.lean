import Rings.Did

/-!
Finger-range proofs and the versioned evidence of each finger slot.

A lookup for slot `i` that answers `s` proves every slot up to `floor (log2 d)`, where `d` is
the distance to `s`. Evidence keeps, for every slot, whether such a proof stands and the
epoch in which the slot's hint last changed: a proof may write a slot only when the hint is
no newer than the lookup.
-/

namespace Rings

/-- The hint vector of a finger table. -/
abbrev Fingers := List (Option Did)

/-- Correlation token of one finger lookup; the slot travels as a `u16`. -/
structure FingerFixRequest where
  slot : Fin (2 ^ 16)
  requestId : Uuid
  deriving DecidableEq

/-- A request for `slot`, when it can be represented on the wire. -/
def FingerFixRequest.new (slot : ℕ) (requestId : Uuid) : Option FingerFixRequest :=
  if h : slot < 2 ^ 16 then some ⟨⟨slot, h⟩, requestId⟩ else none

def FingerFixRequest.slotIndex (r : FingerFixRequest) : ℕ := r.slot

inductive FingerReportRejection
  | invalid | expired | stale
  deriving DecidableEq

def FingerReportRejection.countsAsFailure : FingerReportRejection → Bool
  | .invalid | .expired => true
  | .stale => false

/-- A validated range: the slots from the request's up to `endSlot` have one successor. -/
structure FingerRangeProof where
  request : FingerFixRequest
  issuedEpoch : ℕ
  successor : Did
  endSlot : ℕ
  deriving DecidableEq

def FingerRangeProof.coveredSlotCount (p : FingerRangeProof) : ℕ :=
  if p.request.slotIndex ≤ p.endSlot then p.endSlot - p.request.slotIndex + 1 else 0

/-- The slots of the range: `skip(slot).take(covered_slot_count)`. -/
def FingerRangeProof.covers (p : FingerRangeProof) (i : ℕ) : Bool :=
  decide (p.request.slotIndex ≤ i ∧ i < p.request.slotIndex + p.coveredSlotCount)

def fingerProofEnd (loc successor : Did) (start slotCount : ℕ) : Option ℕ :=
  match slotCount with
  | 0 => none
  | last + 1 =>
    if start > last then none
    -- returning to `loc` crossed the ring origin without meeting another member
    else if successor = loc then some last
    else if dist loc successor < 2 ^ start then none
    else some (min (dist loc successor).log2 last)

lemma covers_iff {p : FingerRangeProof} {i : ℕ} :
    p.covers i = true ↔ p.request.slotIndex ≤ i ∧ i ≤ p.endSlot := by
  rw [FingerRangeProof.covers, decide_eq_true_iff, FingerRangeProof.coveredSlotCount]
  split <;> omega

/-- Everything a proof end says: the range lies in the table, and every slot of it has its
target at or before the successor. -/
lemma fingerProofEnd_spec {loc s : Did} {start n e : ℕ}
    (h : fingerProofEnd loc s start n = some e) :
    start ≤ e ∧ e < n ∧
      (s ≠ loc → 2 ^ e ≤ dist loc s ∧ (e + 1 < n → dist loc s < 2 ^ (e + 1))) := by
  unfold fingerProofEnd at h
  split at h
  · cases h
  rename_i last
  split at h
  · cases h
  split at h
  · rename_i h1 h2
    obtain rfl := Option.some.inj h
    exact ⟨by omega, by omega, fun h3 => absurd h2 h3⟩
  split at h
  · cases h
  rename_i h1 h2 h3
  obtain rfl := Option.some.inj h
  have hd : dist loc s ≠ 0 := by
    have : 0 < 2 ^ start := Nat.two_pow_pos start
    omega
  have hlow : start ≤ (dist loc s).log2 := (Nat.le_log2 hd).mpr (by omega)
  refine ⟨by omega, by omega, fun _ => ⟨?_, fun hlt => ?_⟩⟩
  · exact le_trans (Nat.pow_le_pow_right (by omega) (Nat.min_le_left _ _)) (Nat.log2_self_le hd)
  · rw [Nat.min_eq_left (by omega)]
    exact Nat.lt_log2_self

/-! ### Evidence -/

structure FingerSlotEvidence where
  changedAt : ℕ
  verified : Bool
  deriving DecidableEq

def FingerSlotEvidence.unverified (changedAt : ℕ) : FingerSlotEvidence := ⟨changedAt, false⟩

/-- The hint did not change after the proof's lookup was issued. -/
def FingerSlotEvidence.admits (s : FingerSlotEvidence) (p : FingerRangeProof) : Bool :=
  decide (s.changedAt ≤ p.issuedEpoch)

inductive EvidenceInvalidation
  | unchanged | advanced | epochExhausted
  deriving DecidableEq

structure FingerEvidence where
  epoch : ℕ
  slots : List FingerSlotEvidence
  deriving DecidableEq

namespace FingerEvidence

def new (slotCount : ℕ) : FingerEvidence :=
  ⟨0, List.replicate slotCount (.unverified 0)⟩

def allVerified (e : FingerEvidence) : Bool := e.slots.all (·.verified)

def allUnverified (e : FingerEvidence) : Bool := e.slots.all (!·.verified)

def anyUnverifiedFrom (e : FingerEvidence) (firstSlot : ℕ) : Bool :=
  (e.slots.drop firstSlot).any (!·.verified)

/-- The first slot in `[lo, hi)` that needs proof. -/
def firstUnverifiedIn (e : FingerEvidence) (lo hi : ℕ) : Option ℕ :=
  (((e.slots.take hi).drop lo).findIdx? (!·.verified)).map (lo + ·)

def firstUnverifiedFrom (e : FingerEvidence) (firstSlot : ℕ) : Option ℕ :=
  e.firstUnverifiedIn firstSlot e.slots.length

/-- The next unverified slot in cyclic order from `cursor`, never below `firstSlot`. -/
def nextUnverifiedCyclic (e : FingerEvidence) (firstSlot cursor : ℕ) : Option ℕ :=
  let start := max cursor firstSlot
  (e.firstUnverifiedFrom start).or (e.firstUnverifiedIn firstSlot start)

/-- Inclusive end of the run of equal hints that starts at `slot`. -/
def hintRunEnd (fingers : Fingers) (slot : ℕ) : ℕ :=
  match fingers[slot]? with
  | none => slot
  | some value => slot + ((fingers.drop slot).takeWhile (· = value)).length - 1

def hintChangedAt (before after : Fingers) (slot : ℕ) : Bool :=
  decide (before[slot]? ≠ after[slot]?)

/-- Invalidate precisely the slots whose hint changed; an exhausted epoch counter unverifies
every slot instead. -/
def invalidateHintChanges (e : FingerEvidence) (before after : Fingers) :
    FingerEvidence × EvidenceInvalidation :=
  if ¬ (List.range e.slots.length).any (hintChangedAt before after) then (e, .unchanged)
  else match checkedAdd u64Max e.epoch 1 with
    | none => ({ e with slots := e.slots.map ({ · with verified := false }) }, .epochExhausted)
    | some next =>
      ({ epoch := next
         slots := e.slots.mapIdx fun i s =>
          if hintChangedAt before after i then .unverified next else s }, .advanced)

/-- Mark every slot unverified after a discontinuity of the membership view. -/
def invalidateAll (e : FingerEvidence) : FingerEvidence :=
  match checkedAdd u64Max e.epoch 1 with
  | some next => ⟨next, e.slots.map fun _ => .unverified next⟩
  | none => { e with slots := e.slots.map ({ · with verified := false }) }

/-- Reopen the run of equal hints at `cursor`, wrapping once past the table end. -/
def reopenNextRange (e : FingerEvidence) (fingers : Fingers) (cursor : ℕ) : FingerEvidence :=
  if fingers.length = 0 then e
  else
    let start := cursor % fingers.length
    let stop := hintRunEnd fingers start
    { e with slots := e.slots.mapIdx fun i s =>
        if start ≤ i ∧ i < stop + 1 then { s with verified := false } else s }

/-- A proof can still update at least one slot of its range. -/
def accepts (e : FingerEvidence) (p : FingerRangeProof) : Bool :=
  ((e.slots.drop p.request.slotIndex).take p.coveredSlotCount).any (·.admits p)

/-- Whether the proof writes slot `i`: the slot is in its range and admits it. -/
def writes (e : FingerEvidence) (p : FingerRangeProof) (i : ℕ) : Bool :=
  p.covers i && (e.slots[i]?.elim false (·.admits p))

/-- Write the successor into every slot of the range that admits the proof. A slot changed
after the lookup was issued is skipped. -/
def apply (e : FingerEvidence) (fingers : Fingers) (loc : Did) (p : FingerRangeProof) :
    Fingers × FingerEvidence :=
  -- a self-successor proof is stored as no remote hint
  let replacement := if p.successor = loc then none else some p.successor
  (fingers.mapIdx fun i f => if e.writes p i then replacement else f,
   { e with slots := e.slots.mapIdx fun i s =>
      if decide (i < fingers.length) && e.writes p i then { s with verified := true } else s })

/-- Confirm an inclusive range proved outside lookup traffic; says whether a bit was set. -/
def confirmRange (e : FingerEvidence) (start stop : ℕ) : FingerEvidence × Bool :=
  if start > stop ∨ start ≥ e.slots.length then (e, false)
  else
    let stop := min stop (e.slots.length - 1)
    ({ e with slots := e.slots.mapIdx fun i s =>
        if start ≤ i ∧ i < start + (stop - start + 1) then { s with verified := true } else s },
     ((e.slots.drop start).take (stop - start + 1)).any (!·.verified))

@[simp] lemma new_slots_length (n : ℕ) : (new n).slots.length = n := by simp [new]

@[simp] lemma invalidateHintChanges_slots_length (e : FingerEvidence) (b a : Fingers) :
    (e.invalidateHintChanges b a).1.slots.length = e.slots.length := by
  unfold invalidateHintChanges
  split
  · rfl
  · split <;> simp

@[simp] lemma invalidateAll_slots_length (e : FingerEvidence) :
    e.invalidateAll.slots.length = e.slots.length := by
  unfold invalidateAll
  split <;> simp

@[simp] lemma reopenNextRange_slots_length (e : FingerEvidence) (f : Fingers) (c : ℕ) :
    (e.reopenNextRange f c).slots.length = e.slots.length := by
  unfold reopenNextRange
  split <;> simp

@[simp] lemma apply_slots_length (e : FingerEvidence) (f : Fingers) (l : Did)
    (p : FingerRangeProof) : (e.apply f l p).2.slots.length = e.slots.length := by
  simp [apply]

@[simp] lemma apply_fingers_length (e : FingerEvidence) (f : Fingers) (l : Did)
    (p : FingerRangeProof) : (e.apply f l p).1.length = f.length := by
  simp [apply]

@[simp] lemma confirmRange_slots_length (e : FingerEvidence) (a b : ℕ) :
    (e.confirmRange a b).1.slots.length = e.slots.length := by
  unfold confirmRange
  split <;> simp

lemma apply_getElem? (e : FingerEvidence) (f : Fingers) (l : Did) (p : FingerRangeProof) (i : ℕ) :
    (e.apply f l p).1[i]? = f[i]?.map fun h =>
      if e.writes p i then (if p.successor = l then none else some p.successor) else h := by
  simp [apply]

lemma apply_slots_getElem? (e : FingerEvidence) (f : Fingers) (l : Did) (p : FingerRangeProof)
    (i : ℕ) : (e.apply f l p).2.slots[i]? = e.slots[i]?.map fun s =>
      if i < f.length ∧ e.writes p i = true then { s with verified := true } else s := by
  simp [apply]

lemma writes_covers {e : FingerEvidence} {p : FingerRangeProof} {i : ℕ} (h : e.writes p i = true) :
    p.request.slotIndex ≤ i ∧ i ≤ p.endSlot := by
  simp only [writes, Bool.and_eq_true] at h
  exact covers_iff.mp h.1

end FingerEvidence

end Rings
