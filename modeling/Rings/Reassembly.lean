import Rings.BTreeMap
import Rings.Entry
import Rings.ReplayWindow
import Mathlib.Data.Finset.Basic

/-!
Reassembly of chunked messages.

A message is opened by its first chunk alone, and every later chunk must agree with it on shape,
metadata and lane. What was delivered, and what failed, is remembered for a while, so that one
transmission has one outcome. An open message whose sender holds credit and sends nothing falls
below a rate floor and is dropped like one past its time to live.
-/

namespace Rings.Chunks

/-- The transport lane a frame arrives on. -/
structure ChannelLane where
  index : BitVec 8
deriving DecidableEq

/-- The connection lane a category travels on: one lane for each. -/
def channelLane (category : MessageCategory) : ChannelLane :=
  ⟨BitVec.ofNat 8 category.index⟩

instance uuidOrder : LinearOrder Uuid := LinearOrder.lift' BitVec.toNat fun _ _ => BitVec.eq_of_toNat_eq

structure ChunkMeta where
  id : Uuid
  tsMs : ℕ
  ttlMs : ℕ

/-- One chunk of a chunked message: its position, the number of chunks, and its bytes. -/
structure Chunk where
  position : ℕ
  total : ℕ
  data : Bytes
  info : ChunkMeta

def transportMaxSize : ℕ := 60000000
def transportCustomOverhead : ℕ := 4
def maxChunkEnvelopeOverhead : ℕ := 907
def minChunkData : ℕ := 1024
def maxDataChannelMessageSize : ℕ := 65536
def laneCreditWindow : ℕ := 16

/-- Bytes a millisecond: the longest message over the longest time to live. -/
def rateFloorBytesPerMs : ℕ := transportMaxSize / maxTtlMs

/-- `a.saturating_mul(b)` of an unsigned type whose greatest value is `top`. -/
def saturatingMul (top a b : ℕ) : ℕ := min (a * b) top

/-! ### The rate floor of an open message -/

structure RateFloor where
  rate : ℕ
  chunk : ℕ
  graceChunks : ℕ

/-- The credit-time ledger of one open message: what it received, what its credit-time owes at
the rate floor, and the last sample. -/
structure Progress where
  received : ℕ
  owed : ℕ
  sampledMs : ℕ
  credit : ℕ

namespace Progress

def open_ (nowMs credit received : ℕ) : Progress := ⟨received, 0, nowMs, credit⟩

/-- Advance the credit-time by the credit last sampled, then sample `credit`. -/
def observe (p : Progress) (nowMs credit : ℕ) (floor : RateFloor) : Progress :=
  let elapsed := min (nowMs - p.sampledMs) u64Max
  let advance := min (saturatingMul u64Max floor.rate elapsed)
    (saturatingMul u64Max p.credit floor.chunk)
  { p with
    owed := saturatingAdd u64Max p.owed advance
    sampledMs := max p.sampledMs nowMs
    credit := credit }

def receive (p : Progress) (bytes : ℕ) : Progress :=
  { p with received := saturatingAdd u64Max p.received bytes }

def stalled (p : Progress) (floor : RateFloor) : Bool :=
  saturatingAdd u64Max p.received (saturatingMul u64Max floor.graceChunks floor.chunk) < p.owed

end Progress

/-! ### The reassembler -/

/-- The bounds a reassembler holds incoming chunks to. -/
structure ReassemblyLimits where
  maxPendingMessages : ℕ
  maxChunkDataLen : ℕ
  maxMessageBytes : ℕ
  maxChunksPerMessage : ℕ
  maxCompletedIds : ℕ
  rateFloor : ℕ
  graceChunks : ℕ

namespace ReassemblyLimits

def production : ReassemblyLimits where
  maxPendingMessages := 512
  maxChunkDataLen := maxDataChannelMessageSize
  maxMessageBytes := transportMaxSize
  maxChunksPerMessage := transportMaxSize / minChunkData + 1
  maxCompletedIds := 1024
  rateFloor := rateFloorBytesPerMs
  graceChunks := laneCreditWindow

/-- Every cap is at least one. -/
def normalized (l : ReassemblyLimits) : ReassemblyLimits where
  maxPendingMessages := max l.maxPendingMessages 1
  maxChunkDataLen := max l.maxChunkDataLen 1
  maxMessageBytes := max l.maxMessageBytes 1
  maxChunksPerMessage := max l.maxChunksPerMessage 1
  maxCompletedIds := max l.maxCompletedIds 1
  rateFloor := max l.rateFloor 1
  graceChunks := l.graceChunks

end ReassemblyLimits

/-- Identity of one logical transmission. -/
@[ext]
structure LogicalTransmission where
  id : Uuid
  tsMs : ℕ
  ttlMs : ℕ
deriving DecidableEq

def ChunkMeta.transmission (m : ChunkMeta) : LogicalTransmission := ⟨m.id, m.tsMs, m.ttlMs⟩

/-- A message being reassembled, with the charge its first chunk brought for it. -/
structure Pending (C : Type*) where
  total : ℕ
  firstLen : ℕ
  slots : BTreeMap ℕ Bytes
  tsMs : ℕ
  ttlMs : ℕ
  failureCharged : Bool
  peerAttributable : Bool
  carrier : Option ChannelLane
  charge : C
  progress : Progress

/-- Why a chunk was not admitted. -/
inductive Rejected where
  | ttlTooLarge
  | futureTimestamp
  | expired
  | malformed
  | tooManyChunks
  | chunkTooLarge
  | alreadyCompleted
  | alreadyFailed
  | missingFirstChunk
  | pendingFull
  | totalMismatch
  | metadataMismatch
  | carrierMismatch
  | longerThanFirst
  | duplicatePosition
  | conflictingPosition
  | perMessageBytes
deriving DecidableEq

/-- Whether a rejected chunk is evidence about the remote peer. -/
inductive ReassemblyRejection where
  | invalid
  | replay
deriving DecidableEq

def Rejected.rejection : Rejected → ReassemblyRejection
  | alreadyCompleted | alreadyFailed | duplicatePosition => .replay
  | _ => .invalid

namespace Pending

variable {C : Type*} (p : Pending C)

def rateFloor (limits : ReassemblyLimits) : RateFloor :=
  ⟨limits.rateFloor, min p.firstLen u64Max, limits.graceChunks⟩

def ttlExpired (now : ℕ) : Bool := saturatingAdd u128Max p.tsMs p.ttlMs ≤ now

def isComplete : Bool := p.slots.size = p.total

/-- Whether `chunk`, carried on `carrier`, joins this message. -/
def admits (chunk : Chunk) (carrier : Option ChannelLane) : Except Rejected Unit :=
  if p.total ≠ chunk.total then .error .totalMismatch
  else if p.tsMs ≠ chunk.info.tsMs ∨ p.ttlMs ≠ chunk.info.ttlMs then .error .metadataMismatch
  else if p.carrier ≠ carrier then .error .carrierMismatch
  else if p.firstLen < chunk.data.length then .error .longerThanFirst
  else
    match p.slots.get? chunk.position with
    | some existing =>
      if existing = chunk.data then .error .duplicatePosition else .error .conflictingPosition
    | none => .ok ()

end Pending

structure MessageReassembler (C : Type*) where
  pending : BTreeMap Uuid (Pending C)
  /-- The delivered ids with their expiry, oldest first. -/
  completed : List (Uuid × ℕ)
  completedIds : Finset Uuid
  /-- The failed transmissions with their local horizon, oldest first. -/
  failed : List (LogicalTransmission × ℕ)
  failedIds : Finset LogicalTransmission
  failureTrackingSaturatedUntil : ℕ
  limits : ReassemblyLimits

/-- A completed message and the charge its first chunk took for it. -/
structure RetainedReassembly (C : Type*) where
  bytes : Bytes
  charge : C
  carrier : Option ChannelLane

inductive ReassemblyOutcome (C : Type*) where
  | incomplete
  | complete (retained : RetainedReassembly C)
  | rejected (rejection : ReassemblyRejection)

namespace MessageReassembler

variable {C : Type*}

def withLimits (limits : ReassemblyLimits) : MessageReassembler C :=
  ⟨BTreeMap.empty, [], ∅, [], ∅, 0, limits.normalized⟩

variable (r : MessageReassembler C)

/-- Record `id` as delivered until `expiry`, dropping the oldest past the cap. -/
def markCompleted (id : Uuid) (expiry : ℕ) : MessageReassembler C :=
  let completed := if id ∈ r.completedIds then r.completed else r.completed ++ [(id, expiry)]
  let surplus := completed.length - r.limits.maxCompletedIds
  { r with
    completed := completed.drop surplus
    completedIds := (completed.take surplus).foldl (fun ids e => ids.erase e.1)
      (insert id r.completedIds) }

def evictExpiredTerminalHistory (now : ℕ) : MessageReassembler C :=
  { r with
    completed := r.completed.filter fun e => now < e.2
    completedIds := (r.completed.filter fun e => ¬ now < e.2).foldl
      (fun ids e => ids.erase e.1) r.completedIds
    failed := r.failed.filter fun e => now < e.2
    failedIds := (r.failed.filter fun e => ¬ now < e.2).foldl
      (fun ids e => ids.erase e.1) r.failedIds }

def extendFailureTrackingSaturation (now : ℕ) : MessageReassembler C :=
  { r with
    failureTrackingSaturatedUntil :=
      max r.failureTrackingSaturatedUntil (saturatingAdd u128Max now maxTtlMs) }

def markFailedTransmission (t : LogicalTransmission) (now : ℕ) : Bool × MessageReassembler C :=
  if t ∈ r.failedIds ∨ now < r.failureTrackingSaturatedUntil then (false, r)
  else if r.limits.maxCompletedIds ≤ r.failedIds.card then
    (false, r.extendFailureTrackingSaturation now)
  else
    (true, { r with
      failed := r.failed ++ [(t, saturatingAdd u128Max now maxTtlMs)]
      failedIds := insert t r.failedIds })

/-- An expired message leaves a witness, or extends the horizon of the untracked ones. -/
def markExpired (t : LogicalTransmission) (now : ℕ) : MessageReassembler C :=
  let (marked, r) := r.markFailedTransmission t now
  if marked then r else r.extendFailureTrackingSaturation now

def sample (now : ℕ) (credit : Option ChannelLane → ℕ) (p : Pending C) : Pending C :=
  { p with progress := p.progress.observe now (credit p.carrier) (p.rateFloor r.limits) }

def alive (now : ℕ) (p : Pending C) : Bool :=
  !p.ttlExpired now && !p.progress.stalled (p.rateFloor r.limits)

/-- Sample every open message at `now` and drop those past their time to live or below their
rate floor; the number of them that are evidence about the peer. -/
def sweepAt (now : ℕ) (credit : Option ChannelLane → ℕ) : MessageReassembler C × ℕ :=
  let r := r.evictExpiredTerminalHistory now
  let sampled := r.pending.mapValues (r.sample now credit)
  let gone := sampled.entries.filter fun e => !r.alive now e.2
  let expiredCount := (gone.filter fun e => !e.2.failureCharged && e.2.peerAttributable).length
  let swept := { r with pending := sampled.retain fun _ p => r.alive now p }
  (gone.foldl (fun r e => r.markExpired ⟨e.1, e.2.tsMs, e.2.ttlMs⟩ now) swept,
    min expiredCount usizeMax)

/-- The admission rule. -/
def classify (chunk : Chunk) (now : ℕ) (carrier : Option ChannelLane) : Except Rejected Unit :=
  let info := chunk.info
  if (r.pending.get? info.id).any Pending.failureCharged ∨ info.transmission ∈ r.failedIds then
    .error .alreadyFailed
  else if maxTtlMs < info.ttlMs then .error .ttlTooLarge
  else if now < info.tsMs - tsOffsetToleranceMs then .error .futureTimestamp
  else if saturatingAdd u128Max info.tsMs info.ttlMs ≤ now then .error .expired
  else if chunk.total = 0 ∨ chunk.total ≤ chunk.position then .error .malformed
  else if r.limits.maxChunksPerMessage < chunk.total then .error .tooManyChunks
  else if r.limits.maxChunkDataLen < chunk.data.length then .error .chunkTooLarge
  else if info.id ∈ r.completedIds then .error .alreadyCompleted
  else
    match r.pending.get? info.id with
    | some pending => pending.admits chunk carrier
    | none =>
      if chunk.position ≠ 0 then .error .missingFirstChunk
      else if r.limits.maxPendingMessages ≤ r.pending.size then .error .pendingFull
      else if r.limits.maxMessageBytes ≤
          saturatingMul usizeMax (chunk.total - 1) chunk.data.length then
        .error .perMessageBytes
      else .ok ()

/-- Charge the failure of a chunk to its open message, or else to its own transmission. -/
def markLogicalFailure (chunk : Chunk) (now : ℕ) : Bool × MessageReassembler C :=
  match r.pending.get? chunk.info.id with
  | some pending =>
    if pending.failureCharged then (false, r)
    else (true, { r with
      pending := r.pending.insert chunk.info.id { pending with failureCharged := true } })
  | none => r.markFailedTransmission chunk.info.transmission now

/-- The open message a classified chunk joins, or opens with the charge it brought. -/
def joined (chunk : Chunk) (charge : C) (now credit : ℕ) (peerAttributable : Bool)
    (carrier : Option ChannelLane) : Pending C :=
  match r.pending.get? chunk.info.id with
  | some pending =>
    { pending with
      progress := (pending.progress.observe now credit (pending.rateFloor r.limits)).receive
        (min chunk.data.length u64Max) }
  | none =>
    { total := chunk.total
      firstLen := chunk.data.length
      slots := BTreeMap.empty
      tsMs := chunk.info.tsMs
      ttlMs := chunk.info.ttlMs
      failureCharged := false
      peerAttributable := peerAttributable
      carrier := carrier
      charge := charge
      progress := Progress.open_ now credit (min chunk.data.length u64Max) }

/-- Insert a classified chunk; if it completes its message, take the message out and remember
its id. -/
def insertChunk (chunk : Chunk) (charge : C) (now credit : ℕ) (peerAttributable : Bool)
    (carrier : Option ChannelLane) : ReassemblyOutcome C × MessageReassembler C :=
  let joined := r.joined chunk charge now credit peerAttributable carrier
  let pending := { joined with
    peerAttributable := joined.peerAttributable && peerAttributable
    slots := joined.slots.insert chunk.position chunk.data }
  if !pending.isComplete then
    (.incomplete, { r with pending := r.pending.insert chunk.info.id pending })
  else
    let removed := { r with pending := r.pending.remove chunk.info.id }
    (.complete ⟨(pending.slots.entries.map Prod.snd).flatten, pending.charge, pending.carrier⟩,
      removed.markCompleted chunk.info.id (saturatingAdd u128Max pending.tsMs pending.ttlMs))

/-- Accept one chunk that brought `charge`; also the number of older messages that expired. -/
def handleChargedAt (chunk : Chunk) (charge : C) (now : ℕ) (credit : Option ChannelLane → ℕ)
    (peerAttributable : Bool) (carrier : Option ChannelLane) :
    (ReassemblyOutcome C × ℕ) × MessageReassembler C :=
  let (r, expired) := r.sweepAt now credit
  match r.classify chunk now carrier with
  | .ok () =>
    let (outcome, r) := r.insertChunk chunk charge now (credit carrier) peerAttributable carrier
    ((outcome, expired), r)
  | .error reason =>
    match reason.rejection with
    | .invalid =>
      let (charged, r) := r.markLogicalFailure chunk now
      ((.rejected (if charged then .invalid else .replay), expired), r)
    | .replay => ((.rejected .replay, expired), r)

end MessageReassembler

/-! ### What the admission rule admits -/

variable {C : Type*}

lemma Pending.admits_ok_iff {p : Pending C} {chunk : Chunk} {carrier : Option ChannelLane} :
    p.admits chunk carrier = .ok () ↔ p.total = chunk.total ∧
      (p.tsMs = chunk.info.tsMs ∧ p.ttlMs = chunk.info.ttlMs) ∧ p.carrier = carrier ∧
      chunk.data.length ≤ p.firstLen ∧ p.slots.get? chunk.position = none := by
  unfold admits
  split_ifs with htotal hinfo hcarrier hlen
  · simp [htotal]
  · rw [not_not] at htotal
    simp only [false_iff, not_and]
    intro _ hmeta
    simp [hmeta.1, hmeta.2] at hinfo
  · simp [hcarrier]
  · simp only [false_iff, not_and]
    intro _ _ _ hle
    omega
  · rw [not_not] at htotal hcarrier
    rw [not_or, not_not, not_not] at hinfo
    simp only [htotal, hinfo, hcarrier, Nat.not_lt.1 hlen, and_self, true_and]
    cases p.slots.get? chunk.position with
    | none => simp
    | some existing =>
      simp only [reduceCtorEq, iff_false]
      split <;> simp

/-- An admitted chunk is timely and well shaped, and its transmission neither failed nor
completed; it joins its message, or opens it. -/
lemma MessageReassembler.classify_ok_iff {r : MessageReassembler C} {chunk : Chunk} {now : ℕ}
    {carrier : Option ChannelLane} :
    r.classify chunk now carrier = .ok () ↔
      ((∀ p, r.pending.get? chunk.info.id = some p → p.failureCharged = false) ∧
        chunk.info.transmission ∉ r.failedIds) ∧
      chunk.info.ttlMs ≤ maxTtlMs ∧ chunk.info.tsMs - tsOffsetToleranceMs ≤ now ∧
      now < saturatingAdd u128Max chunk.info.tsMs chunk.info.ttlMs ∧
      (chunk.total ≠ 0 ∧ chunk.position < chunk.total) ∧
      chunk.total ≤ r.limits.maxChunksPerMessage ∧
      chunk.data.length ≤ r.limits.maxChunkDataLen ∧ chunk.info.id ∉ r.completedIds ∧
      match r.pending.get? chunk.info.id with
      | some p => p.admits chunk carrier = .ok ()
      | none => chunk.position = 0 ∧ r.pending.size < r.limits.maxPendingMessages ∧
          saturatingMul usizeMax (chunk.total - 1) chunk.data.length < r.limits.maxMessageBytes := by
  have hnext : ∀ (q : Prop) [Decidable q] (reason : Rejected) (e : Except Rejected Unit),
      (if q then .error reason else e) = .ok () ↔ ¬ q ∧ e = .ok () := by
    intro q _ reason e
    split <;> simp_all
  have hany : ¬ (r.pending.get? chunk.info.id).any Pending.failureCharged = true ↔
      ∀ p, r.pending.get? chunk.info.id = some p → p.failureCharged = false := by
    cases r.pending.get? chunk.info.id <;> simp
  unfold classify
  simp only [hnext, not_or, not_lt, not_le, hany, ne_eq]
  cases r.pending.get? chunk.info.id with
  | some p => rfl
  | none => simp only [hnext, not_not, not_le, and_true]

end Rings.Chunks
