import Rings.Framing
import Rings.TerminalOutcome

/-!
The round trip of a chunked payload.

The chunks of one message reach a reassembler after its first chunk in any order, any number of
times, among the chunks of other messages. What the reassembler holds of the message is read off
the set of the positions seen: it opens with the first, a position seen before is dropped, and the
last one missing completes it.
-/

namespace Rings.Chunks

variable {C : Type*}

def MessageReassembler.handled :
    MessageReassembler C → List (Call C) → List (Chunk × ReassemblyOutcome C)
  | _, [] => []
  | r, .sweep now credit :: calls => handled (r.sweepAt now credit).1 calls
  | r, .handle chunk charge now credit peerAttributable carrier :: calls =>
    let step := r.handleChargedAt chunk charge now credit peerAttributable carrier
    (chunk, step.1.1) :: handled step.2 calls

def ReassemblyOutcome.bytes? : ReassemblyOutcome C → Option Bytes
  | .complete retained => some retained.bytes
  | _ => none

/-- The delivery of one chunked payload on a lane, beside other messages. -/
structure Delivery where
  payload : Bytes
  chunkSize : ℕ
  info : ChunkMeta
  carrier : Option ChannelLane
  others : Finset Uuid

namespace Delivery

open MessageReassembler

variable (d : Delivery)

def chunks : List Chunk := Chunk.stream d.payload d.chunkSize d.info

def total : ℕ := chunkTotal d.payload d.chunkSize

def piece (i : ℕ) : Bytes := Chunks.piece d.payload d.chunkSize i

def expiry : ℕ := d.info.transmission.expiry

/-- A call within the time to live: a sweep, a chunk of another message, or one of this message on
its lane. -/
def Allows : Call C → Prop
  | .sweep now _ => now < d.expiry
  | .handle chunk _ now _ _ carrier => now < d.expiry ∧
    (chunk.info.id ∈ d.others ∨
      chunk ∈ d.chunks ∧ carrier = d.carrier ∧ d.info.tsMs - tsOffsetToleranceMs ≤ now)

def Steady : MessageReassembler C → List (Call C) → Prop
  | _, [] => True
  | r, c :: calls =>
    (∀ p, r.pending.get? d.info.id = some p →
      (r.sample c.now c.credit p).progress.stalled (p.rateFloor r.limits) = false) ∧
    Steady (r.call c).1 calls

def position? : Call C → Option ℕ
  | .sweep _ _ => none
  | .handle chunk _ _ _ _ _ => if chunk.info.id = d.info.id then some chunk.position else none

def positions (calls : List (Call C)) : List ℕ := calls.filterMap d.position?

/-- The chunks of the message that a run hands in, with their outcomes. -/
def outcomes (r : MessageReassembler C) (calls : List (Call C)) :
    List (Chunk × ReassemblyOutcome C) :=
  (r.handled calls).filter fun e => e.1.info.id = d.info.id

/-- The payload is cut as a plan cuts it, and the other messages are fewer than may be open. -/
structure Fits : Prop where
  payload_pos : 0 < d.payload.length
  payload_le : d.payload.length ≤ transportMaxSize
  le_size : minChunkData ≤ d.chunkSize
  size_le : d.chunkSize ≤ maxDataChannelMessageSize
  ttl : d.info.ttlMs ≤ maxTtlMs
  other : d.info.id ∉ d.others
  few : d.others.card < ReassemblyLimits.production.maxPendingMessages

/-! ### What the reassembler holds -/

/-- An open message holds the positions seen. -/
structure Assembled (p : Pending C) (seen : Finset ℕ) : Prop where
  total : p.total = d.total
  firstLen : p.firstLen = (d.piece 0).length
  slots : ∀ i, p.slots.get? i = if i ∈ seen then some (d.piece i) else none
  tsMs : p.tsMs = d.info.tsMs
  ttlMs : p.ttlMs = d.info.ttlMs
  uncharged : p.failureCharged = false
  carrier : p.carrier = d.carrier

/-- The message after the positions seen: unknown, open, or delivered. -/
inductive Stage (r : MessageReassembler C) (seen : Finset ℕ) : Prop
  | unknown (hseen : seen = ∅) (hopen : r.pending.get? d.info.id = none)
      (hcompleted : d.info.id ∉ r.completedIds)
  | open_ (p : Pending C) (hseen : seen ≠ Finset.range d.total)
      (hopen : r.pending.get? d.info.id = some p) (hassembled : d.Assembled p seen)
      (hcompleted : d.info.id ∉ r.completedIds)
  | delivered (hseen : seen = Finset.range d.total) (hopen : r.pending.get? d.info.id = none)
      (hcompleted : (d.info.id, d.expiry) ∈ r.completed)

/-- The reassembler after the positions seen. -/
structure Holds (r : MessageReassembler C) (seen : Finset ℕ) : Prop where
  limits : r.limits = ReassemblyLimits.production.normalized
  tombs : Tombs r.completed r.completedIds
  completed : ∀ e ∈ r.completed, e.1 ∈ insert d.info.id d.others
  pending : ∀ id p, r.pending.get? id = some p → id ∈ insert d.info.id d.others
  failed : ∀ t ∈ r.failedIds, t.id ∈ d.others
  within : seen ⊆ Finset.range d.total
  stage : d.Stage r seen

/-- What becomes of a chunk when some positions are seen: one seen before is dropped, the last
one missing completes the message. -/
def Expected (seen : Finset ℕ) (i : ℕ) (outcome : ReassemblyOutcome C) : Prop :=
  if i ∈ seen then outcome = .rejected .replay
  else if insert i seen = Finset.range d.total then
    ∃ retained, outcome = .complete retained ∧ retained.bytes = d.payload
  else outcome = .incomplete

variable {d} {r : MessageReassembler C} {seen : Finset ℕ} {now : ℕ} {p : Pending C}
  {credit : Option ChannelLane → ℕ}

/-! ### A sweep -/

/-- Marking failures touches the failures alone. -/
structure Framed (r r' : MessageReassembler C) (ts : List LogicalTransmission) : Prop where
  pending : r'.pending = r.pending
  completed : r'.completed = r.completed
  completedIds : r'.completedIds = r.completedIds
  limits : r'.limits = r.limits
  only : ∀ t ∈ r'.failedIds, t ∈ r.failedIds ∨ t ∈ ts

lemma framed_markFailed (r : MessageReassembler C) (t : LogicalTransmission) (now : ℕ) :
    Framed r (r.markFailedTransmission t now).2 [t] := by
  rcases r.markFailedTransmission_cases t now with ⟨-, heq⟩ | heq | ⟨-, heq⟩
  · rw [heq]
    exact ⟨rfl, rfl, rfl, rfl, fun u hu => Or.inl hu⟩
  · rw [heq]
    exact ⟨rfl, rfl, rfl, rfl, fun u hu => Or.inl hu⟩
  · rw [heq]
    refine ⟨rfl, rfl, rfl, rfl, fun u hu => ?_⟩
    rcases Finset.mem_insert.1 hu with rfl | hu
    · exact Or.inr (List.mem_singleton_self u)
    · exact Or.inl hu

lemma framed_markExpired (r : MessageReassembler C) (t : LogicalTransmission) (now : ℕ) :
    Framed r (r.markExpired t now) [t] := by
  have hmark := framed_markFailed r t now
  have heq : r.markExpired t now = if (r.markFailedTransmission t now).1 then
      (r.markFailedTransmission t now).2
    else (r.markFailedTransmission t now).2.extendFailureTrackingSaturation now := rfl
  rw [heq]
  split
  · exact hmark
  · exact ⟨hmark.pending, hmark.completed, hmark.completedIds, hmark.limits, hmark.only⟩

lemma framed_foldl (ts : List LogicalTransmission) (r : MessageReassembler C) (now : ℕ) :
    Framed r (ts.foldl (fun r t => r.markExpired t now) r) ts := by
  induction ts generalizing r with
  | nil => exact ⟨rfl, rfl, rfl, rfl, fun t ht => Or.inl ht⟩
  | cons t ts ih =>
    rw [List.foldl_cons]
    have hfirst := framed_markExpired r t now
    have hrest := ih (r.markExpired t now)
    refine ⟨hrest.pending.trans hfirst.pending, hrest.completed.trans hfirst.completed,
      hrest.completedIds.trans hfirst.completedIds, hrest.limits.trans hfirst.limits, ?_⟩
    intro u hu
    rcases hrest.only u hu with hu | hu
    · rcases hfirst.only u hu with hu | hu
      · exact Or.inl hu
      · exact Or.inr (List.mem_cons.2 (Or.inl (List.mem_singleton.1 hu)))
    · exact Or.inr (List.mem_cons_of_mem t hu)

lemma framed_sweep (r : MessageReassembler C) (now : ℕ) (credit : Option ChannelLane → ℕ) :
    Framed (r.swept now credit) (r.sweepAt now credit).1
      ((r.gone now credit).map fun g => g.2.transmission g.1) := by
  have heq : (r.sweepAt now credit).1 = ((r.gone now credit).map fun g =>
      g.2.transmission g.1).foldl (fun r t => r.markExpired t now) (r.swept now credit) := by
    rw [List.foldl_map]
    rfl
  rw [heq]
  exact framed_foldl _ _ now

lemma Assembled.alive (h : d.Assembled p seen) (hnow : now < d.expiry)
    (hsteady : (r.sample now credit p).progress.stalled (p.rateFloor r.limits) = false) :
    r.alive now (r.sample now credit p) = true := by
  have hexpiry : now < saturatingAdd u128Max p.tsMs p.ttlMs := by
    rw [h.tsMs, h.ttlMs]
    exact hnow
  have hlive : (r.sample now credit p).ttlExpired now = false := decide_eq_false (not_le.2 hexpiry)
  rw [MessageReassembler.alive, hlive]
  change (!false && !((r.sample now credit p).progress.stalled (p.rateFloor r.limits))) = true
  rw [hsteady]
  rfl

/-- A sweep within the time to live keeps the message, and touches the others alone. -/
lemma Holds.sweep (h : d.Holds r seen) (hnow : now < d.expiry)
    (hsteady : ∀ p, r.pending.get? d.info.id = some p →
      (r.sample now credit p).progress.stalled (p.rateFloor r.limits) = false) :
    d.Holds (r.sweepAt now credit).1 seen := by
  have hf := framed_sweep r now credit
  have hids : (r.sweepAt now credit).1.completedIds =
      (r.completed.filter fun e => ¬ now < e.2).foldl (fun ids e => ids.erase e.1)
        r.completedIds := hf.completedIds
  have hcompleted : (r.sweepAt now credit).1.completed =
      r.completed.filter fun e => now < e.2 := hf.completed
  have hnone : r.pending.get? d.info.id = none →
      (r.sweepAt now credit).1.pending.get? d.info.id = none := by
    intro hopen
    by_contra hne
    obtain ⟨p, hp⟩ := Option.ne_none_iff_exists'.1 hne
    rw [hf.pending] at hp
    obtain ⟨q, hq, -⟩ := get?_swept.1 hp
    rw [hopen] at hq
    cases hq
  have hforget : d.info.id ∉ r.completedIds →
      d.info.id ∉ (r.sweepAt now credit).1.completedIds := by
    intro hid hmem
    rw [hids] at hmem
    exact hid ((mem_foldl_erase _ _).1 hmem).1
  refine ⟨hf.limits.trans h.limits, ?_, fun e he => ?_, fun id p hp => ?_, fun t ht => ?_, h.within,
    ?_⟩
  · rw [hids, hcompleted]
    exact h.tombs.evict now
  · rw [hcompleted] at he
    exact h.completed e (List.mem_filter.1 he).1
  · rw [hf.pending] at hp
    obtain ⟨q, hq, -⟩ := get?_swept.1 hp
    exact h.pending id q hq
  · rcases hf.only t ht with ht | ht
    · exact h.failed t ((mem_foldl_erase _ _).1 ht).1
    · obtain ⟨g, hg, rfl⟩ := List.mem_map.1 ht
      obtain ⟨q, hq, hgq, hdead⟩ := mem_gone.1 hg
      rcases Finset.mem_insert.1 (h.pending g.1 q hq) with hid | hid
      · -- the message itself is alive
        rw [hid] at hq
        cases h.stage with
        | unknown hseen hopen hid' =>
          rw [hopen] at hq
          cases hq
        | open_ p hseen hopen hassembled hid' =>
          rw [hopen] at hq
          cases hq
          rw [hgq, hassembled.alive hnow (hsteady _ hopen)] at hdead
          cases hdead
        | delivered hseen hopen hid' =>
          rw [hopen] at hq
          cases hq
      · exact hid
  · cases h.stage with
    | unknown hseen hopen hid => exact .unknown hseen (hnone hopen) (hforget hid)
    | open_ p hseen hopen hassembled hid =>
      refine .open_ (r.sample now credit p) hseen ?_ ⟨hassembled.total, hassembled.firstLen,
        hassembled.slots, hassembled.tsMs, hassembled.ttlMs, hassembled.uncharged,
        hassembled.carrier⟩ (hforget hid)
      rw [hf.pending]
      exact get?_swept.2 ⟨p, hopen, rfl, hassembled.alive hnow (hsteady p hopen)⟩
    | delivered hseen hopen hid =>
      refine .delivered hseen (hnone hopen) ?_
      rw [hcompleted]
      exact List.mem_filter.2 ⟨hid, decide_eq_true hnow⟩

/-! ### A chunk of another message -/

lemma Stage.congr {r' : MessageReassembler C} (h : d.Stage r seen)
    (hopen : r'.pending.get? d.info.id = r.pending.get? d.info.id)
    (hids : d.info.id ∈ r'.completedIds → d.info.id ∈ r.completedIds)
    (hcompleted : ∀ e ∈ r.completed, e ∈ r'.completed) : d.Stage r' seen := by
  cases h with
  | unknown hseen hnone hid => exact .unknown hseen (hopen.trans hnone) fun hmem => hid (hids hmem)
  | open_ p hseen hp hassembled hid =>
    exact .open_ p hseen (hopen.trans hp) hassembled fun hmem => hid (hids hmem)
  | delivered hseen hnone hid => exact .delivered hseen (hopen.trans hnone) (hcompleted _ hid)

lemma length_le_card {α : Type*} [DecidableEq α] {l : List α} {s : Finset α} (hnodup : l.Nodup)
    (hsub : ∀ x ∈ l, x ∈ s) : l.length ≤ s.card := by
  rw [← List.toFinset_card_of_nodup hnodup]
  exact Finset.card_le_card fun x hx => hsub x (List.mem_toFinset.1 hx)

lemma Holds.room (h : d.Holds r seen) (hfew : d.others.card < 512) :
    r.completed.length < r.limits.maxCompletedIds := by
  have hle := length_le_card h.tombs.nodup fun id hid => by
    obtain ⟨e, he, rfl⟩ := List.mem_map.1 hid
    exact h.completed e he
  have hcard := Finset.card_insert_le d.info.id d.others
  rw [List.length_map] at hle
  rw [h.limits]
  change r.completed.length < 1024
  omega

lemma Holds.openable (h : d.Holds r seen) (hfew : d.others.card < 512)
    (hnone : r.pending.get? d.info.id = none) : r.pending.size < r.limits.maxPendingMessages := by
  have hle := length_le_card r.pending.nodup fun id hid => by
    obtain ⟨e, he, rfl⟩ := List.mem_map.1 hid
    have hget := (BTreeMap.mem_entries r.pending).1 he
    rcases Finset.mem_insert.1 (h.pending e.1 e.2 hget) with hid | hid
    · rw [hid, hnone] at hget
      cases hget
    · exact hid
  rw [List.length_map] at hle
  rw [h.limits]
  change r.pending.entries.length < 512
  omega

variable {chunk : Chunk} {charge : C} {peerAttributable : Bool} {carrier : Option ChannelLane}

lemma Holds.other_inserted (h : d.Holds r seen) (hother : d.info.id ∉ d.others)
    (hfew : d.others.card < 512) (hid : chunk.info.id ∈ d.others)
    (hok : r.classify chunk now carrier = .ok ()) (credit : ℕ) :
    d.Holds (r.insertChunk chunk charge now credit peerAttributable carrier).2 seen := by
  have hne : d.info.id ≠ chunk.info.id := fun heq => hother (heq ▸ hid)
  obtain ⟨-, -, -, -, -, -, -, hcompleted, -⟩ := classify_ok_iff.1 hok
  obtain ⟨p, -, -, heq | ⟨retained, heq⟩⟩ := insertChunk_cases hok charge credit
    peerAttributable
  · rw [heq]
    refine ⟨h.limits, h.tombs, h.completed, fun id q hq => ?_, h.failed, h.within,
      h.stage.congr ?_ (fun hmem => hmem) fun e he => he⟩
    · change (r.pending.insert chunk.info.id p).get? id = some q at hq
      rw [BTreeMap.get?_insert] at hq
      split at hq
      · rename_i heq'
        rw [heq']
        exact Finset.mem_insert_of_mem hid
      · exact h.pending id q hq
    · change (r.pending.insert chunk.info.id p).get? d.info.id = _
      rw [BTreeMap.get?_insert, if_neg hne]
  · have hmark : ({ r with pending := r.pending.remove chunk.info.id } :
        MessageReassembler C).markCompleted chunk.info.id chunk.info.transmission.expiry =
        { r with
          pending := r.pending.remove chunk.info.id
          completed := r.completed ++ [(chunk.info.id, chunk.info.transmission.expiry)]
          completedIds := insert chunk.info.id r.completedIds } :=
      markCompleted_of_room hcompleted (h.room hfew)
    rw [heq, hmark]
    refine ⟨h.limits, h.tombs.insert hcompleted _, fun e he => ?_, fun id q hq => ?_, h.failed,
      h.within, h.stage.congr ?_ (fun hmem => ?_) fun e he => List.mem_append_left _ he⟩
    · rcases List.mem_append.1 he with he | he
      · exact h.completed e he
      · rw [List.mem_singleton.1 he]
        exact Finset.mem_insert_of_mem hid
    · change (r.pending.remove chunk.info.id).get? id = some q at hq
      rw [BTreeMap.get?_remove] at hq
      split at hq
      · cases hq
      · exact h.pending id q hq
    · change (r.pending.remove chunk.info.id).get? d.info.id = _
      rw [BTreeMap.get?_remove, if_neg hne]
    · exact (Finset.mem_insert.1 hmem).resolve_left hne

lemma Holds.other_charged (h : d.Holds r seen) (hother : d.info.id ∉ d.others)
    (hid : chunk.info.id ∈ d.others) : d.Holds (r.markLogicalFailure chunk now).2 seen := by
  have hne : d.info.id ≠ chunk.info.id := fun heq => hother (heq ▸ hid)
  rw [markLogicalFailure]
  cases hp : r.pending.get? chunk.info.id with
  | some p =>
    simp only
    split
    · exact h
    · refine ⟨h.limits, h.tombs, h.completed, fun id q hq => ?_, h.failed, h.within,
        h.stage.congr ?_ (fun hmem => hmem) fun e he => he⟩
      · rw [BTreeMap.get?_insert] at hq
        split at hq
        · rename_i heq
          rw [heq]
          exact Finset.mem_insert_of_mem hid
        · exact h.pending id q hq
      · rw [BTreeMap.get?_insert, if_neg hne]
  | none =>
    have hf := framed_markFailed r chunk.info.transmission now
    simp only
    refine ⟨hf.limits.trans h.limits, ?_, ?_, ?_, fun t ht => ?_, h.within, ?_⟩
    · rw [hf.completed, hf.completedIds]
      exact h.tombs
    · rw [hf.completed]
      exact h.completed
    · rw [hf.pending]
      exact h.pending
    · rcases hf.only t ht with ht | ht
      · exact h.failed t ht
      · rw [List.mem_singleton.1 ht]
        exact hid
    · refine h.stage.congr ?_ (fun hmem => ?_) fun e he => ?_
      · rw [hf.pending]
      · rwa [hf.completedIds] at hmem
      · rwa [hf.completed]

/-! ### A chunk of the message -/

lemma Fits.size_pos (h : d.Fits) : 0 < d.chunkSize := by
  have hle : 1024 ≤ d.chunkSize := h.le_size
  omega

lemma Fits.mem_chunks (h : d.Fits) : chunk ∈ d.chunks ↔ chunk.position < d.total ∧
    chunk.total = d.total ∧ chunk.data = d.piece chunk.position ∧ chunk.info = d.info := by
  refine mem_stream h.size_pos (h.payload_le.trans ?_)
  decide

lemma Fits.total_spec (h : d.Fits) : 0 < d.total ∧
    (d.total - 1) * d.chunkSize < d.payload.length :=
  have hspec := chunkTotal_spec h.size_pos h.payload_pos
  ⟨hspec.1, hspec.2.1⟩

lemma length_piece_le (i : ℕ) : (d.piece i).length ≤ (d.piece 0).length ∧
    (d.piece i).length ≤ d.chunkSize := by
  rw [piece, piece, length_piece, length_piece]
  omega

lemma Fits.total_le (h : d.Fits) : d.total ≤ ReassemblyLimits.production.maxChunksPerMessage := by
  have hle : 1024 ≤ d.chunkSize := h.le_size
  have hlen : d.payload.length ≤ 60000000 := h.payload_le
  have hmul : (d.total - 1) * 1024 ≤ (d.total - 1) * d.chunkSize := Nat.mul_le_mul_left _ hle
  have hspec := h.total_spec.2
  change d.total ≤ 58594
  omega

lemma Fits.claim_lt (h : d.Fits) : saturatingMul usizeMax (d.total - 1) (d.piece 0).length <
    ReassemblyLimits.production.maxMessageBytes := by
  calc saturatingMul usizeMax (d.total - 1) (d.piece 0).length
      ≤ (d.total - 1) * (d.piece 0).length := min_le_left _ _
    _ ≤ (d.total - 1) * d.chunkSize := Nat.mul_le_mul_left _ (length_piece_le 0).2
    _ < d.payload.length := h.total_spec.2
    _ ≤ transportMaxSize := h.payload_le

/-- A chunk of the message is of a shape that a message can have. -/
lemma Holds.shaped (h : d.Holds r seen) (hfits : d.Fits) (hchunk : chunk ∈ d.chunks) :
    r.Shaped chunk := by
  obtain ⟨hposition, htotal, hdata, -⟩ := hfits.mem_chunks.1 hchunk
  have hlen := (length_piece_le (d := d) chunk.position).2.trans hfits.size_le
  have hcount := hfits.total_le
  rw [Shaped, htotal, hdata, h.limits]
  refine ⟨hfits.total_spec.1.ne', hposition, hcount, hlen⟩

lemma Holds.classify (h : d.Holds r seen) (hfits : d.Fits) (hchunk : chunk ∈ d.chunks)
    (hts : d.info.tsMs - tsOffsetToleranceMs ≤ now) (hnow : now < d.expiry)
    (hfirst : seen = ∅ → chunk.position = 0) :
    (chunk.position ∈ seen ∧ ∃ reason, r.classify chunk now d.carrier = .error reason ∧
      reason.rejection = .replay) ∨
    (chunk.position ∉ seen ∧ r.classify chunk now d.carrier = .ok ()) := by
  obtain ⟨hposition, htotal, hdata, hinfo⟩ := hfits.mem_chunks.1 hchunk
  have hshaped := h.shaped hfits hchunk
  have hfailed : chunk.info.transmission ∉ r.failedIds := by
    intro hmem
    have hid := h.failed _ hmem
    rw [hinfo] at hid
    exact hfits.other hid
  have httl : chunk.info.ttlMs ≤ maxTtlMs := by
    rw [hinfo]
    exact hfits.ttl
  have hexpiry : now < saturatingAdd u128Max chunk.info.tsMs chunk.info.ttlMs := by
    rw [hinfo]
    exact hnow
  rw [← hinfo] at hts
  obtain ⟨htotal0, hbelow, hchunks, hlen⟩ := hshaped
  cases h.stage with
  | unknown hseen hopen hid =>
    rw [← hinfo] at hopen hid
    have hzero := hfirst hseen
    refine Or.inr ⟨by rw [hseen]; exact Finset.notMem_empty _, classify_ok_iff.2 ⟨⟨?_, hfailed⟩,
      httl, hts, hexpiry, ⟨htotal0, hbelow⟩, hchunks, hlen, hid, ?_⟩⟩
    · intro p hp
      rw [hopen] at hp
      cases hp
    · rw [hopen]
      refine ⟨hzero, h.openable hfits.few (hinfo ▸ hopen), ?_⟩
      rw [htotal, hdata, hzero, h.limits]
      exact hfits.claim_lt
  | open_ p hseen hopen hassembled hid =>
    rw [← hinfo] at hopen hid
    have hmeta : p.tsMs = chunk.info.tsMs ∧ p.ttlMs = chunk.info.ttlMs := by
      rw [hinfo]
      exact ⟨hassembled.tsMs, hassembled.ttlMs⟩
    have hjoins : p.total = chunk.total := hassembled.total.trans htotal.symm
    have hlen' : (d.piece chunk.position).length ≤ p.firstLen := by
      rw [hassembled.firstLen]
      exact (length_piece_le chunk.position).1
    have hslot := hassembled.slots chunk.position
    by_cases hmem : chunk.position ∈ seen
    · refine Or.inl ⟨hmem, .duplicatePosition, ?_, rfl⟩
      rw [if_pos hmem] at hslot
      have hadmits : p.admits chunk d.carrier = .error .duplicatePosition := by
        rw [Pending.admits]
        simp only [hjoins, hmeta, hassembled.carrier, not_lt.2 hlen', hslot, hdata, ne_eq,
          not_true_eq_false, or_self, if_false, if_true]
      rw [MessageReassembler.classify]
      simp only [hopen, Option.any_some, hassembled.uncharged, Bool.false_eq_true, hfailed, or_self,
        if_false, not_lt.2 httl, not_lt.2 hts, not_le.2 hexpiry, htotal0, not_le.2 hbelow,
        not_lt.2 hchunks, not_lt.2 hlen, hid, hadmits]
    · rw [if_neg hmem] at hslot
      refine Or.inr ⟨hmem, classify_ok_iff.2 ⟨⟨?_, hfailed⟩, httl, hts, hexpiry,
        ⟨htotal0, hbelow⟩, hchunks, hlen, hid, ?_⟩⟩
      · intro q hq
        rw [hopen] at hq
        cases hq
        exact hassembled.uncharged
      · rw [hopen]
        exact Pending.admits_ok_iff.2 ⟨hjoins, hmeta, hassembled.carrier, hdata ▸ hlen', hslot⟩
  | delivered hseen hopen hid =>
    rw [← hinfo] at hopen
    refine Or.inl ⟨?_, .alreadyCompleted, ?_, rfl⟩
    · rw [hseen]
      exact Finset.mem_range.2 hposition
    · refine classify_completed hfailed hopen httl hts hexpiry ⟨htotal0, hbelow, hchunks, hlen⟩ ?_
      rw [hinfo]
      exact (h.tombs.mem _).2 (List.mem_map.2 ⟨_, hid, rfl⟩)

lemma Assembled.size (h : d.Assembled p seen) : p.slots.size = seen.card := by
  have hkeys : (p.slots.entries.map Prod.fst).toFinset = seen := by
    ext i
    rw [List.mem_toFinset, BTreeMap.mem_keys, h.slots]
    split <;> simp_all
  rw [← hkeys, List.toFinset_card_of_nodup p.slots.nodup, List.length_map]
  rfl

/-- The open message that holds every position holds the payload. -/
lemma Assembled.flatten (h : d.Assembled p (Finset.range d.total)) (hfits : d.Fits) :
    (p.slots.entries.map Prod.snd).flatten = d.payload := by
  obtain ⟨m, hm⟩ : ∃ m : BTreeMap ℕ Bytes,
      m.entries = (List.range d.total).map fun i => (i, d.piece i) :=
    ⟨⟨_, List.pairwise_map.2 List.pairwise_lt_range⟩, rfl⟩
  have hslots : p.slots = m := by
    refine BTreeMap.ext_get? fun i => ?_
    have hget : ∀ piece, m.get? i = some piece ↔ i < d.total ∧ d.piece i = piece := by
      intro piece
      rw [← BTreeMap.mem_entries, hm, List.mem_map]
      constructor
      · rintro ⟨j, hj, heq⟩
        cases heq
        exact ⟨List.mem_range.1 hj, rfl⟩
      · rintro ⟨hi, rfl⟩
        exact ⟨i, List.mem_range.2 hi, rfl⟩
    rw [h.slots]
    split
    · rename_i hi
      exact ((hget _).2 ⟨Finset.mem_range.1 hi, rfl⟩).symm
    · rename_i hi
      refine (Option.eq_none_iff_forall_ne_some.2 fun piece hpiece => ?_).symm
      exact hi (Finset.mem_range.2 ((hget piece).1 hpiece).1)
  have hdata : p.slots.entries.map Prod.snd = (List.range d.total).map d.piece := by
    rw [hslots, hm, List.map_map]
    rfl
  rw [hdata]
  exact flatten_chunks hfits.size_pos hfits.payload_pos

/-- The message that a chunk joins or opens holds the positions seen. -/
lemma Holds.joined (h : d.Holds r seen) (hfits : d.Fits) (hchunk : chunk ∈ d.chunks)
    (hfirst : seen = ∅ → chunk.position = 0) (hmem : chunk.position ∉ seen) (credit : ℕ) :
    d.Assembled (r.joined chunk charge now credit peerAttributable d.carrier) seen := by
  obtain ⟨hposition, htotal, hdata, hinfo⟩ := hfits.mem_chunks.1 hchunk
  rw [MessageReassembler.joined, hinfo]
  cases h.stage with
  | unknown hseen hopen hid =>
    rw [hopen]
    refine ⟨htotal, ?_, fun i => ?_, ?_, ?_, rfl, rfl⟩
    · simp only [hdata, hfirst hseen]
    · rw [hseen, if_neg (Finset.notMem_empty i)]
      rfl
    · simp only
    · simp only
  | open_ p hseen hopen hassembled hid =>
    rw [hopen]
    exact ⟨hassembled.total, hassembled.firstLen, hassembled.slots, hassembled.tsMs,
      hassembled.ttlMs, hassembled.uncharged, hassembled.carrier⟩
  | delivered hseen hopen hid =>
    rw [hseen] at hmem
    exact absurd (Finset.mem_range.2 hposition) hmem

/-- An accepted chunk is seen; the last one missing delivers the payload. -/
lemma Holds.own_inserted (h : d.Holds r seen) (hfits : d.Fits) (hchunk : chunk ∈ d.chunks)
    (hfirst : seen = ∅ → chunk.position = 0) (hmem : chunk.position ∉ seen)
    (hok : r.classify chunk now d.carrier = .ok ()) (credit : ℕ) :
    d.Expected seen chunk.position
        (r.insertChunk chunk charge now credit peerAttributable d.carrier).1 ∧
      d.Holds (r.insertChunk chunk charge now credit peerAttributable d.carrier).2
        (insert chunk.position seen) := by
  obtain ⟨-, -, -, -, -, -, -, hid, -⟩ := classify_ok_iff.1 hok
  obtain ⟨hposition, htotal, hdata, hinfo⟩ := hfits.mem_chunks.1 hchunk
  obtain ⟨joined, hjoined⟩ : ∃ p, p = r.joined chunk charge now credit peerAttributable d.carrier :=
    ⟨_, rfl⟩
  have hassembled : d.Assembled joined seen :=
    hjoined ▸ h.joined hfits hchunk hfirst hmem credit
  obtain ⟨p, hp⟩ : ∃ p : Pending C, p = { joined with
      peerAttributable := joined.peerAttributable && peerAttributable
      slots := joined.slots.insert chunk.position chunk.data } := ⟨_, rfl⟩
  have hnext : d.Assembled p (insert chunk.position seen) := by
    rw [hp]
    refine ⟨hassembled.total, hassembled.firstLen, fun i => ?_, hassembled.tsMs, hassembled.ttlMs,
      hassembled.uncharged, hassembled.carrier⟩
    rw [BTreeMap.get?_insert, hassembled.slots, hdata]
    by_cases hi : i = chunk.position
    · rw [if_pos hi, if_pos (hi ▸ Finset.mem_insert_self _ _), hi]
    · rw [if_neg hi]
      exact if_congr (by rw [Finset.mem_insert, or_iff_right hi]) rfl rfl
  have hwithin : insert chunk.position seen ⊆ Finset.range d.total :=
    Finset.insert_subset (Finset.mem_range.2 hposition) h.within
  have hcomplete : p.isComplete = true ↔ insert chunk.position seen = Finset.range d.total := by
    rw [Pending.isComplete, decide_eq_true_iff, hnext.size, hnext.total]
    constructor
    · intro hcard
      refine Finset.eq_of_subset_of_card_le hwithin ?_
      rw [hcard, Finset.card_range]
    · intro hseen
      rw [hseen, Finset.card_range]
  have hinsert : r.insertChunk chunk charge now credit peerAttributable d.carrier =
      if !p.isComplete then
        (.incomplete, { r with pending := r.pending.insert chunk.info.id p })
      else
        (.complete ⟨(p.slots.entries.map Prod.snd).flatten, p.charge, p.carrier⟩,
          ({ r with pending := r.pending.remove chunk.info.id } :
            MessageReassembler C).markCompleted chunk.info.id
              (saturatingAdd u128Max p.tsMs p.ttlMs)) := by
    rw [hp, hjoined]
    rfl
  rw [hinsert, hinfo, Expected, if_neg hmem]
  rw [hinfo] at hid
  by_cases hlast : insert chunk.position seen = Finset.range d.total
  · rw [hcomplete.2 hlast, if_pos hlast]
    rw [hlast] at hnext
    have hexpiry : saturatingAdd u128Max p.tsMs p.ttlMs = d.expiry := by
      rw [hnext.tsMs, hnext.ttlMs]
      rfl
    have hmark : ({ r with pending := r.pending.remove d.info.id } :
        MessageReassembler C).markCompleted d.info.id d.expiry =
        { r with
          pending := r.pending.remove d.info.id
          completed := r.completed ++ [(d.info.id, d.expiry)]
          completedIds := insert d.info.id r.completedIds } :=
      markCompleted_of_room hid (h.room hfits.few)
    refine ⟨⟨_, rfl, hnext.flatten hfits⟩, ?_⟩
    rw [hexpiry]
    change d.Holds (({ r with pending := r.pending.remove d.info.id } :
        MessageReassembler C).markCompleted d.info.id d.expiry) _
    rw [hmark]
    refine ⟨h.limits, h.tombs.insert hid _, fun e he => ?_, fun id q hq => ?_, h.failed, hwithin,
      .delivered hlast ?_ (List.mem_append_right _ (List.mem_singleton_self _))⟩
    · rcases List.mem_append.1 he with he | he
      · exact h.completed e he
      · rw [List.mem_singleton.1 he]
        exact Finset.mem_insert_self _ _
    · change (r.pending.remove d.info.id).get? id = some q at hq
      rw [BTreeMap.get?_remove] at hq
      split at hq
      · cases hq
      · exact h.pending id q hq
    · change (r.pending.remove d.info.id).get? d.info.id = none
      rw [BTreeMap.get?_remove, if_pos rfl]
  · have hopen : p.isComplete = false := by
      rw [← Bool.not_eq_true]
      exact fun hc => hlast (hcomplete.1 hc)
    rw [hopen, if_neg hlast]
    refine ⟨rfl, h.limits, h.tombs, h.completed, fun id q hq => ?_, h.failed, hwithin,
      .open_ p hlast ?_ hnext hid⟩
    · change (r.pending.insert d.info.id p).get? id = some q at hq
      rw [BTreeMap.get?_insert] at hq
      split at hq
      · rename_i heq
        rw [heq]
        exact Finset.mem_insert_self _ _
      · exact h.pending id q hq
    · change (r.pending.insert d.info.id p).get? d.info.id = some p
      rw [BTreeMap.get?_insert, if_pos rfl]

/-- A chunk of the message has the outcome expected, and is seen after. -/
lemma Holds.own_handled (h : d.Holds r seen) (hfits : d.Fits) (hchunk : chunk ∈ d.chunks)
    (hts : d.info.tsMs - tsOffsetToleranceMs ≤ now) (hnow : now < d.expiry)
    (hfirst : seen = ∅ → chunk.position = 0)
    (hsteady : ∀ p, r.pending.get? d.info.id = some p →
      (r.sample now credit p).progress.stalled (p.rateFloor r.limits) = false)
    (charge : C) (peerAttributable : Bool) :
    d.Expected seen chunk.position
        (r.handleChargedAt chunk charge now credit peerAttributable d.carrier).1.1 ∧
      d.Holds (r.handleChargedAt chunk charge now credit peerAttributable d.carrier).2
        (insert chunk.position seen) := by
  have hswept := h.sweep hnow hsteady
  rcases hswept.classify hfits hchunk hts hnow hfirst with
    ⟨hmem, reason, hreason, hreplay⟩ | ⟨hmem, hok⟩
  · have heq : r.handleChargedAt chunk charge now credit peerAttributable d.carrier =
        ((.rejected .replay, (r.sweepAt now credit).2), (r.sweepAt now credit).1) := by
      simp only [handleChargedAt, hreason, hreplay]
    rw [heq, Finset.insert_eq_self.2 hmem, Expected, if_pos hmem]
    exact ⟨rfl, hswept⟩
  · have heq : r.handleChargedAt chunk charge now credit peerAttributable d.carrier =
        ((((r.sweepAt now credit).1.insertChunk chunk charge now (credit d.carrier) peerAttributable
          d.carrier).1, (r.sweepAt now credit).2),
          ((r.sweepAt now credit).1.insertChunk chunk charge now (credit d.carrier) peerAttributable
            d.carrier).2) := by
      simp only [handleChargedAt, hok]
    rw [heq]
    exact hswept.own_inserted hfits hchunk hfirst hmem hok _

lemma Holds.other_handled (h : d.Holds r seen) (hfits : d.Fits) (hid : chunk.info.id ∈ d.others)
    (hnow : now < d.expiry)
    (hsteady : ∀ p, r.pending.get? d.info.id = some p →
      (r.sample now credit p).progress.stalled (p.rateFloor r.limits) = false) :
    d.Holds (r.handleChargedAt chunk charge now credit peerAttributable carrier).2 seen := by
  have hswept := h.sweep hnow hsteady
  rcases r.handleChargedAt_cases chunk charge now credit peerAttributable carrier rfl with
    ⟨hok, heq⟩ | ⟨reason, -, -, heq⟩ | heq
  · rw [heq]
    exact hswept.other_inserted hfits.other hfits.few hid hok _
  · rw [heq]
    exact hswept.other_charged hfits.other hid
  · rw [heq]
    exact hswept

/-! ### Runs -/

variable {calls : List (Call C)} {e : Chunk × ReassemblyOutcome C}
  {l : List (Chunk × ReassemblyOutcome C)}

/-- The outcomes of the chunks are those expected, from the positions seen before. -/
def Follows (d : Delivery) : Finset ℕ → List (Chunk × ReassemblyOutcome C) → Prop
  | _, [] => True
  | seen, e :: l => d.Expected seen e.1.position e.2 ∧ d.Follows (insert e.1.position seen) l

lemma holds_withLimits (d : Delivery) :
    d.Holds (withLimits .production : MessageReassembler C) ∅ where
  limits := rfl
  tombs := ⟨by simp [withLimits], by simp [withLimits]⟩
  completed e he := by cases he
  pending id p hp := by cases hp
  failed t ht := absurd ht (Finset.notMem_empty t)
  within := Finset.empty_subset _
  stage := .unknown rfl rfl (Finset.notMem_empty _)

lemma outcomes_positions (d : Delivery) (r : MessageReassembler C) (calls : List (Call C)) :
    (d.outcomes r calls).map (fun e => e.1.position) = d.positions calls := by
  induction calls generalizing r with
  | nil => rfl
  | cons c calls ih =>
    cases c with
    | sweep now credit => exact ih _
    | handle chunk charge now credit peerAttributable carrier =>
      rw [outcomes, handled, positions, List.filterMap_cons, position?]
      by_cases hid : chunk.info.id = d.info.id
      · simp only [hid, decide_true, List.filter_cons_of_pos, List.map_cons, if_true]
        exact congrArg _ (ih _)
      · simp only [hid, decide_false, Bool.false_eq_true, not_false_eq_true,
          List.filter_cons_of_neg, if_false]
        exact ih _

lemma Holds.run (h : d.Holds r seen) (hfits : d.Fits) (hallowed : ∀ c ∈ calls, d.Allows c)
    (hsteady : d.Steady r calls)
    (hfirst : seen = ∅ → ∀ i ∈ (d.positions calls).head?, i = 0) :
    d.Follows seen (d.outcomes r calls) := by
  induction calls generalizing r seen with
  | nil => exact trivial
  | cons c calls ih =>
    obtain ⟨hnow, hrest⟩ := hsteady
    have hallowed' := fun c hc => hallowed c (List.mem_cons_of_mem _ hc)
    have hc := hallowed c List.mem_cons_self
    cases c with
    | sweep now credit => exact ih (h.sweep hc hnow) hallowed' hrest hfirst
    | handle chunk charge now credit peerAttributable carrier =>
      obtain ⟨hlive, hother | ⟨hchunk, rfl, hts⟩⟩ := hc
      · have hne : chunk.info.id ≠ d.info.id := fun heq => hfits.other (heq ▸ hother)
        have hrun := ih (h.other_handled hfits hother hlive hnow) hallowed' hrest fun hseen => by
          have hhead := hfirst hseen
          have hposition : d.position? (.handle chunk charge now credit peerAttributable carrier) =
              none := if_neg hne
          rwa [positions, List.filterMap_cons_none hposition] at hhead
        rw [outcomes, handled, List.filter_cons_of_neg (by simpa using hne)]
        exact hrun
      · obtain ⟨-, -, -, hinfo⟩ := hfits.mem_chunks.1 hchunk
        have hid : chunk.info.id = d.info.id := congrArg ChunkMeta.id hinfo
        have hzero : seen = ∅ → chunk.position = 0 := by
          intro hseen
          have hposition : d.position? (.handle chunk charge now credit peerAttributable d.carrier) =
              some chunk.position := if_pos hid
          refine hfirst hseen _ ?_
          rw [positions, List.filterMap_cons_some hposition]
          rfl
        obtain ⟨hexpected, hnext⟩ := h.own_handled hfits hchunk hts hlive hzero hnow charge
          peerAttributable
        have hrun := ih hnext hallowed' hrest fun hseen =>
          absurd hseen (Finset.insert_ne_empty _ _)
        rw [outcomes, handled, List.filter_cons_of_pos (by simpa using hid)]
        exact ⟨hexpected, hrun⟩

lemma Follows.accepted (h : d.Follows seen l) {pre post : List (Chunk × ReassemblyOutcome C)}
    (hl : l = pre ++ e :: post) : e.2 = .incomplete ∨ (∃ retained, e.2 = .complete retained) ∨
      e.2 = .rejected .replay ∧
        (e.1.position ∈ seen ∨ e.1.position ∈ pre.map fun e => e.1.position) := by
  induction pre generalizing seen l with
  | nil =>
    rw [hl] at h
    have hexpected := h.1
    rw [Expected] at hexpected
    split at hexpected
    · rename_i hmem
      exact Or.inr (Or.inr ⟨hexpected, Or.inl hmem⟩)
    · split at hexpected
      · obtain ⟨retained, hretained, -⟩ := hexpected
        exact Or.inr (Or.inl ⟨retained, hretained⟩)
      · exact Or.inl hexpected
  | cons e' pre ih =>
    rw [hl] at h
    refine (ih h.2 rfl).imp_right (Or.imp_right fun ⟨hreplay, hseen⟩ => ⟨hreplay, ?_⟩)
    rcases hseen with hseen | hseen
    · rcases Finset.mem_insert.1 hseen with heq | hseen
      · rw [heq]
        exact Or.inr List.mem_cons_self
      · exact Or.inl hseen
    · exact Or.inr (List.mem_cons_of_mem _ hseen)

lemma Follows.delivered (h : d.Follows (Finset.range d.total) l)
    (hwithin : ∀ e ∈ l, e.1.position ∈ Finset.range d.total) :
    l.filterMap (fun e => e.2.bytes?) = [] := by
  induction l with
  | nil => rfl
  | cons e l ih =>
    have hmem := hwithin e List.mem_cons_self
    obtain ⟨hexpected, hrest⟩ := h
    rw [Finset.insert_eq_self.2 hmem] at hrest
    rw [Expected, if_pos hmem] at hexpected
    rw [List.filterMap_cons_none (by rw [hexpected]; rfl)]
    exact ih hrest fun e he => hwithin e (List.mem_cons_of_mem _ he)

/-- Once every position came, one chunk has delivered the payload. -/
lemma Follows.delivers (h : d.Follows seen l) (hseen : seen ≠ Finset.range d.total)
    (hwithin : ∀ e ∈ l, e.1.position ∈ Finset.range d.total)
    (hall : ∀ i ∈ Finset.range d.total, i ∈ seen ∨ i ∈ l.map fun e => e.1.position)
    (hsub : seen ⊆ Finset.range d.total) :
    l.filterMap (fun e => e.2.bytes?) = [d.payload] := by
  induction l generalizing seen with
  | nil =>
    refine absurd (Finset.Subset.antisymm hsub fun i hi => ?_) hseen
    exact (hall i hi).resolve_right List.not_mem_nil
  | cons e l ih =>
    have hmem := hwithin e List.mem_cons_self
    have hwithin' := fun e he => hwithin e (List.mem_cons_of_mem _ he)
    obtain ⟨hexpected, hrest⟩ := h
    rw [Expected] at hexpected
    by_cases hlast : insert e.1.position seen = Finset.range d.total
    · have hnew : e.1.position ∉ seen := by
        intro hold
        rw [Finset.insert_eq_self.2 hold] at hlast
        exact hseen hlast
      rw [if_neg hnew, if_pos hlast] at hexpected
      obtain ⟨retained, hretained, hbytes⟩ := hexpected
      rw [hlast] at hrest
      rw [List.filterMap_cons_some (b := d.payload) (by rw [hretained, ← hbytes]; rfl),
        hrest.delivered hwithin']
    · have hnone : e.2.bytes? = none := by
        split at hexpected
        · rw [hexpected]
          rfl
        · rw [hexpected]
          rfl
      rw [List.filterMap_cons_none (f := fun e : Chunk × ReassemblyOutcome C => e.2.bytes?) hnone]
      refine ih hrest hlast hwithin' (fun i hi => ?_) (Finset.insert_subset hmem hsub)
      rcases hall i hi with hi | hi
      · exact Or.inl (Finset.mem_insert_of_mem hi)
      · rcases List.mem_cons.1 hi with rfl | hi
        · exact Or.inl (Finset.mem_insert_self _ _)
        · exact Or.inr hi

end Delivery

/-- **Chunking round trip.** A payload cut by the plan arrives whole and once, whatever the order
and the number of its chunks after the first, and whatever the chunks of fewer other messages than
may be open. -/
theorem chunks_round_trip {payload : Bytes} {limit chunkSize : ℕ} (hpayload : 1 ≤ payload.length)
    (hlen : payload.length ≤ transportMaxSize) (hlimit : limit ≤ maxDataChannelMessageSize)
    (hplan : WireReserves.production.plan payload.length limit = some (.chunked chunkSize))
    (id : Uuid) (tsMs : ℕ) (carrier : Option ChannelLane) (others : Finset Uuid)
    (hother : id ∉ others) (hfew : others.card < ReassemblyLimits.production.maxPendingMessages)
    {d : Delivery} (hd : d = ⟨payload, chunkSize, .sentAt id tsMs, carrier, others⟩)
    (calls : List (Call C)) (hallowed : ∀ c ∈ calls, d.Allows c)
    (hsteady : d.Steady (.withLimits .production) calls)
    (hfirst : ∀ i ∈ (d.positions calls).head?, i = 0) :
    (∀ chunk ∈ d.chunks, chunk.data.length + WireReserves.production.chunk ≤ limit) ∧
    (∀ pre chunk outcome post,
      d.outcomes (.withLimits .production) calls = pre ++ (chunk, outcome) :: post →
        outcome = .incomplete ∨ (∃ retained, outcome = .complete retained) ∨
          outcome = .rejected .replay ∧ chunk.position ∈ pre.map fun e => e.1.position) ∧
    ((∀ chunk ∈ d.chunks, chunk.position ∈ d.positions calls) →
      (d.outcomes (.withLimits .production) calls).filterMap (fun e => e.2.bytes?) = [payload]) := by
  obtain ⟨hsize, hmin⟩ := WireReserves.plan_chunked hplan
  have hfits : d.Fits := by
    rw [hd]
    exact ⟨hpayload, hlen, hmin, (Nat.le_of_add_right_le hsize.le).trans hlimit,
      by simp only [ChunkMeta.sentAt]; decide, hother, hfew⟩
  have hfollows := (d.holds_withLimits (C := C)).run hfits hallowed hsteady fun _ => hfirst
  refine ⟨fun chunk hchunk => ?_, fun pre chunk outcome post hl => ?_, fun hall => ?_⟩
  · obtain ⟨-, -, hdata, -⟩ := hfits.mem_chunks.1 hchunk
    have hle := (Delivery.length_piece_le (d := d) chunk.position).2
    have heq : d.chunkSize = chunkSize := by rw [hd]
    rw [hdata]
    omega
  · refine (hfollows.accepted hl).imp_right (Or.imp_right fun ⟨hreplay, hseen⟩ => ⟨hreplay, ?_⟩)
    exact hseen.resolve_left (Finset.notMem_empty _)
  · have hpositions := d.outcomes_positions (.withLimits .production) calls
    have hpayload' : d.payload = payload := by rw [hd]
    rw [← hpayload']
    refine hfollows.delivers ?_ (fun e he => ?_) (fun i hi => Or.inr ?_) (Finset.empty_subset _)
    · intro hempty
      have hpos := hfits.total_spec.1
      rw [eq_comm, Finset.range_eq_empty_iff] at hempty
      omega
    · have hmem : e.1.position ∈ d.positions calls :=
        hpositions ▸ List.mem_map_of_mem (f := fun e => e.1.position) he
      obtain ⟨c, hc, hposition⟩ := List.mem_filterMap.1 hmem
      cases c with
      | sweep now credit => cases hposition
      | handle chunk charge now credit peerAttributable lane =>
        rw [Delivery.position?] at hposition
        split at hposition
        · rename_i hid
          rw [← Option.some.inj hposition]
          rcases (hallowed _ hc).2 with hin | ⟨hchunk, -⟩
          · rw [hid] at hin
            exact absurd hin hfits.other
          · exact Finset.mem_range.2 (hfits.mem_chunks.1 hchunk).1
        · cases hposition
    · rw [hpositions]
      exact hall ⟨i, d.total, d.piece i, d.info⟩
        (hfits.mem_chunks.2 ⟨Finset.mem_range.1 hi, rfl, rfl, rfl⟩)

set_option maxRecDepth 40000 in
/-- A payload of two chunks, handed in as it was cut. -/
theorem chunks_round_trip_pair : ∃ d : Delivery, d.payload.length = 1932 ∧
    (d.outcomes (.withLimits .production) (d.chunks.map fun chunk =>
      (.handle chunk () 0 (fun _ => 0) true none))).filterMap (fun e => e.2.bytes?) =
        [d.payload] := by
  have hlen : (List.replicate 1932 (⟨0, by decide⟩ : Fin 256)).length = 1932 :=
    List.length_replicate
  refine ⟨⟨List.replicate 1932 ⟨0, by decide⟩, 1024, .sentAt 1#128 0, none, ∅⟩, hlen, ?_⟩
  refine (chunks_round_trip (by rw [hlen]; decide) (by rw [hlen]; decide)
    (show 1935 ≤ maxDataChannelMessageSize by decide) (by rw [hlen]; decide) 1#128 0 none ∅
    (Finset.notMem_empty _) (by decide) rfl _ (fun c hc => ?_) ?_ ?_).2.2 ?_
  · obtain ⟨chunk, hchunk, rfl⟩ := List.mem_map.1 hc
    exact ⟨by decide, Or.inr ⟨hchunk, rfl, by decide⟩⟩
  · refine ⟨fun p hp => ?_, fun p hp => ?_, trivial⟩
    · cases hp
    · cases hp
      rfl
  · intro i hi
    cases hi
    rfl
  · intro chunk hchunk
    obtain ⟨-, -, -, hinfo⟩ := (mem_stream (by decide) (by rw [hlen]; decide)).1 hchunk
    exact List.mem_filterMap.2 ⟨_, List.mem_map.2 ⟨chunk, hchunk, rfl⟩,
      if_pos (congrArg ChunkMeta.id hinfo)⟩

end Rings.Chunks
