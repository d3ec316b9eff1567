import Rings.Reassembly

/-!
One terminal outcome for each logical transmission.

A transmission ends by its completion, by a rejection that is evidence about the peer, or by an
expiry that is counted. What ended is remembered for a while, a completed id until its time to
live is over and a failed transmission for the longest time to live, and while it is remembered it
does not end again.
-/

namespace Rings.Chunks

variable {C : Type*}

inductive Fate
  | complete | invalid | expiry
deriving DecidableEq

structure Ended where
  fate : Fate
  transmission : LogicalTransmission
  atMs : ℕ

/-- When the time to live of a transmission is over. -/
def LogicalTransmission.expiry (t : LogicalTransmission) : ℕ := saturatingAdd u128Max t.tsMs t.ttlMs

def Ended.horizon (e : Ended) : ℕ :=
  match e.fate with
  | .complete => e.transmission.expiry
  | .invalid | .expiry => saturatingAdd u128Max e.atMs maxTtlMs

inductive Call (C : Type*)
  | sweep (now : ℕ) (credit : Option ChannelLane → ℕ)
  | handle (chunk : Chunk) (charge : C) (now : ℕ) (credit : Option ChannelLane → ℕ)
      (peerAttributable : Bool) (carrier : Option ChannelLane)

def Call.now : Call C → ℕ
  | .sweep now _ => now
  | .handle _ _ now _ _ _ => now

def Call.credit : Call C → Option ChannelLane → ℕ
  | .sweep _ credit => credit
  | .handle _ _ _ credit _ _ => credit

def Pending.transmission (p : Pending C) (id : Uuid) : LogicalTransmission := ⟨id, p.tsMs, p.ttlMs⟩

namespace MessageReassembler

def gone (r : MessageReassembler C) (now : ℕ) (credit : Option ChannelLane → ℕ) :
    List (Uuid × Pending C) :=
  (r.pending.mapValues (r.sample now credit)).entries.filter fun e => !r.alive now e.2

/-- The transmissions whose expiry a sweep counts. -/
def counted (r : MessageReassembler C) (now : ℕ) (credit : Option ChannelLane → ℕ) :
    List Ended :=
  ((r.gone now credit).filter fun e => !e.2.failureCharged && e.2.peerAttributable).map fun e =>
    ⟨.expiry, e.2.transmission e.1, now⟩

/-- The end that a chunk brings its transmission. -/
def ends (chunk : Chunk) (now : ℕ) : ReassemblyOutcome C → List Ended
  | .complete _ => [⟨.complete, chunk.info.transmission, now⟩]
  | .rejected .invalid => [⟨.invalid, chunk.info.transmission, now⟩]
  | _ => []

def call (r : MessageReassembler C) : Call C → MessageReassembler C × List Ended
  | .sweep now credit => ((r.sweepAt now credit).1, r.counted now credit)
  | .handle chunk charge now credit peerAttributable carrier =>
    let handled := r.handleChargedAt chunk charge now credit peerAttributable carrier
    (handled.2, r.counted now credit ++ ends chunk now handled.1.1)

def run : MessageReassembler C → List (Call C) → List Ended
  | _, [] => []
  | r, call :: calls => (r.call call).2 ++ run (r.call call).1 calls

/-- The clock of the calls does not go back. -/
def Timed : ℕ → List (Call C) → Prop
  | _, [] => True
  | clock, call :: calls => clock ≤ call.now ∧ Timed call.now calls

/-- Terminal tracking is never saturated: no failure goes untracked, and a completion never
pushes another out. -/
def Unsaturated : MessageReassembler C → List (Call C) → Prop
  | _, [] => True
  | r, call :: calls =>
    (r.completed.filter fun e => call.now < e.2).length < r.limits.maxCompletedIds ∧
      (r.call call).1.failureTrackingSaturatedUntil = 0 ∧ Unsaturated (r.call call).1 calls

/-- A chunk of a shape that a message can have. -/
def Shaped (r : MessageReassembler C) (chunk : Chunk) : Prop :=
  chunk.total ≠ 0 ∧ chunk.position < chunk.total ∧
    chunk.total ≤ r.limits.maxChunksPerMessage ∧ chunk.data.length ≤ r.limits.maxChunkDataLen

/-- A chunk comes under the metadata of the open message of its id, and one of a completed
transmission is well shaped. -/
def Plain (r : MessageReassembler C) : Call C → Prop
  | .sweep _ _ => True
  | .handle chunk _ now credit _ _ =>
    ((∀ e ∈ r.failed, e.1 = chunk.info.transmission → e.2 ≤ now) →
      (∀ p, r.pending.get? chunk.info.id = some p → p.failureCharged = false →
        r.alive now (r.sample now credit p) →
        p.transmission chunk.info.id = chunk.info.transmission) ∧
      ((chunk.info.id, chunk.info.transmission.expiry) ∈ r.completed →
        now < chunk.info.transmission.expiry → r.Shaped chunk))

def AllPlain : MessageReassembler C → List (Call C) → Prop
  | _, [] => True
  | r, call :: calls => r.Plain call ∧ AllPlain (r.call call).1 calls

/-- No transmission ends twice while its end is remembered. -/
def EndsOnce (ended : List Ended) : Prop :=
  ended.Pairwise fun e e' => e.transmission = e'.transmission → e.horizon ≤ e'.atMs

/-! ### Tombstones -/

section Tombstones

variable {α : Type*} [DecidableEq α] {l : List (α × ℕ)} {s : Finset α} {x : α} {now : ℕ}

/-- The tombstones of a list and the set of them. -/
structure Tombs (l : List (α × ℕ)) (s : Finset α) : Prop where
  mem : ∀ x, x ∈ s ↔ x ∈ l.map Prod.fst
  nodup : (l.map Prod.fst).Nodup

lemma mem_foldl_erase (l : List (α × ℕ)) (s : Finset α) :
    x ∈ l.foldl (fun ids e => ids.erase e.1) s ↔ x ∈ s ∧ x ∉ l.map Prod.fst := by
  induction l generalizing s with
  | nil => simp
  | cons e l ih =>
    rw [List.foldl_cons, ih, Finset.mem_erase, List.map_cons, List.mem_cons, not_or]
    exact ⟨fun h => ⟨h.1.2, h.1.1, h.2⟩, fun h => ⟨⟨h.2.1, h.1⟩, h.2.2⟩⟩

lemma Tombs.evict (h : Tombs l s) (now : ℕ) : Tombs (l.filter fun e => now < e.2)
    ((l.filter fun e => ¬ now < e.2).foldl (fun ids e => ids.erase e.1) s) := by
  constructor
  · intro x
    rw [mem_foldl_erase, h.mem, List.mem_map, List.mem_map, List.mem_map]
    constructor
    · rintro ⟨⟨e, he, rfl⟩, hstale⟩
      refine ⟨e, List.mem_filter.2 ⟨he, ?_⟩, rfl⟩
      by_contra hnow
      exact hstale ⟨e, List.mem_filter.2 ⟨he, by simpa using hnow⟩, rfl⟩
    · rintro ⟨e, he, rfl⟩
      obtain ⟨hmem, hnow⟩ := List.mem_filter.1 he
      refine ⟨⟨e, hmem, rfl⟩, ?_⟩
      rintro ⟨e', he', heq⟩
      obtain ⟨hmem', hnow'⟩ := List.mem_filter.1 he'
      rw [List.inj_on_of_nodup_map h.nodup hmem' hmem heq] at hnow'
      simp only [decide_eq_true_eq] at hnow hnow'
      exact hnow' hnow
  · exact h.nodup.sublist (List.filter_sublist.map Prod.fst)

lemma Tombs.insert (h : Tombs l s) (hx : x ∉ s) (expiry : ℕ) :
    Tombs (l ++ [(x, expiry)]) (insert x s) := by
  constructor
  · intro y
    rw [Finset.mem_insert, h.mem, List.map_append, List.mem_append]
    simp [or_comm]
  · rw [List.map_append, List.nodup_append]
    refine ⟨h.nodup, by simp, fun y hy z hz hyz => hx ?_⟩
    have hzx : z = x := by simpa using hz
    rw [h.mem, ← hzx, ← hyz]
    exact hy

end Tombstones

/-! ### What is remembered -/

/-- The reassembler remembers an end. -/
def Remembers (r : MessageReassembler C) (e : Ended) : Prop :=
  match e.fate with
  | .complete => (e.transmission.id, e.transmission.expiry) ∈ r.completed ∧
      e.transmission.ttlMs ≤ maxTtlMs ∧ e.transmission.tsMs - tsOffsetToleranceMs ≤ e.atMs
  | .invalid | .expiry => (∃ until_, (e.transmission, until_) ∈ r.failed ∧ e.horizon ≤ until_) ∨
      ∃ p, r.pending.get? e.transmission.id = some p ∧
        p.transmission e.transmission.id = e.transmission ∧ p.failureCharged = true

/-- The tombstones are in order, no open message is of a delivered id or a failed transmission,
and every end is remembered until its horizon. -/
structure Good (r : MessageReassembler C) (ended : List Ended) (clock : ℕ) : Prop where
  completed : Tombs r.completed r.completedIds
  failed : Tombs r.failed r.failedIds
  notCompleted : ∀ id p, r.pending.get? id = some p → id ∉ r.completedIds
  notFailed : ∀ id p, r.pending.get? id = some p → p.transmission id ∉ r.failedIds
  past : ∀ e ∈ ended, e.atMs ≤ clock
  remembered : ∀ e ∈ ended, clock < e.horizon → r.Remembers e
  once : EndsOnce ended

variable {r : MessageReassembler C} {ended : List Ended} {clock now : ℕ}
  {credit : Option ChannelLane → ℕ} {t : LogicalTransmission} {e : Ended}

lemma good_withLimits (limits : ReassemblyLimits) (clock : ℕ) :
    Good (withLimits limits : MessageReassembler C) [] clock where
  completed := ⟨by simp [withLimits], by simp [withLimits]⟩
  failed := ⟨by simp [withLimits], by simp [withLimits]⟩
  notCompleted id p hp := by cases hp
  notFailed id p hp := by cases hp
  past e he := by cases he
  remembered e he := by cases he
  once := List.Pairwise.nil

lemma Good.ended_cases (h : r.Good ended clock) (he : e ∈ ended) (hhorizon : clock < e.horizon) :
    (e.transmission.id ∈ r.completedIds ∧
        (e.transmission.id, e.transmission.expiry) ∈ r.completed ∧
        e.transmission.ttlMs ≤ maxTtlMs ∧ e.transmission.tsMs - tsOffsetToleranceMs ≤ clock ∧
        clock < e.transmission.expiry) ∨
      e.transmission ∈ r.failedIds ∨
      ∃ p, r.pending.get? e.transmission.id = some p ∧
        p.transmission e.transmission.id = e.transmission ∧ p.failureCharged = true := by
  have hremembered := h.remembered e he hhorizon
  have hfailed : (∃ until_, (e.transmission, until_) ∈ r.failed ∧ e.horizon ≤ until_) →
      e.transmission ∈ r.failedIds := by
    rintro ⟨until_, hmem, -⟩
    exact (h.failed.mem _).2 (List.mem_map.2 ⟨_, hmem, rfl⟩)
  rw [Remembers] at hremembered
  cases hfate : e.fate with
  | complete =>
    rw [hfate] at hremembered
    obtain ⟨hmem, httl, hts⟩ := hremembered
    have hexpiry : e.horizon = e.transmission.expiry := by rw [Ended.horizon, hfate]
    exact Or.inl ⟨(h.completed.mem _).2 (List.mem_map.2 ⟨_, hmem, rfl⟩), hmem, httl,
      hts.trans (h.past e he), hexpiry ▸ hhorizon⟩
  | invalid =>
    rw [hfate] at hremembered
    exact Or.inr (hremembered.imp hfailed id)
  | expiry =>
    rw [hfate] at hremembered
    exact Or.inr (hremembered.imp hfailed id)

/-! ### A sweep -/

lemma Good.evict (h : r.Good ended clock) (hclock : clock ≤ now) :
    (r.evictExpiredTerminalHistory now).Good ended now where
  completed := h.completed.evict now
  failed := h.failed.evict now
  notCompleted id p hp hid := by
    refine h.notCompleted id p hp ?_
    exact ((mem_foldl_erase _ _).1 hid).1
  notFailed id p hp ht := by
    refine h.notFailed id p hp ?_
    exact ((mem_foldl_erase _ _).1 ht).1
  past e he := (h.past e he).trans hclock
  remembered e he hnow := by
    have hremembered := h.remembered e he (hclock.trans_lt hnow)
    rw [Remembers] at hremembered ⊢
    cases hfate : e.fate with
    | complete =>
      rw [hfate] at hremembered
      have hexpiry : e.horizon = e.transmission.expiry := by rw [Ended.horizon, hfate]
      refine ⟨List.mem_filter.2 ⟨hremembered.1, ?_⟩, hremembered.2⟩
      exact decide_eq_true (hexpiry ▸ hnow)
    | invalid =>
      rw [hfate] at hremembered
      refine hremembered.imp ?_ id
      rintro ⟨until_, hmem, hle⟩
      exact ⟨until_, List.mem_filter.2 ⟨hmem, decide_eq_true (hnow.trans_le hle)⟩, hle⟩
    | expiry =>
      rw [hfate] at hremembered
      refine hremembered.imp ?_ id
      rintro ⟨until_, hmem, hle⟩
      exact ⟨until_, List.mem_filter.2 ⟨hmem, decide_eq_true (hnow.trans_le hle)⟩, hle⟩
  once := h.once

lemma sample_transmission (r : MessageReassembler C) (now : ℕ)
    (credit : Option ChannelLane → ℕ) (p : Pending C) (id : Uuid) :
    (r.sample now credit p).transmission id = p.transmission id := rfl

lemma mem_gone {g : Uuid × Pending C} : g ∈ r.gone now credit ↔
    ∃ p, r.pending.get? g.1 = some p ∧ g.2 = r.sample now credit p ∧ r.alive now g.2 = false := by
  rw [gone, List.mem_filter]
  have hmem : g ∈ (r.pending.mapValues (r.sample now credit)).entries ↔
      ∃ p, r.pending.get? g.1 = some p ∧ g.2 = r.sample now credit p := by
    rw [show g = (g.1, g.2) from rfl, BTreeMap.mem_entries, BTreeMap.get?_mapValues,
      Option.map_eq_some_iff]
    exact exists_congr fun p => and_congr_right fun _ => eq_comm
  rw [hmem, Bool.not_eq_true']
  exact ⟨fun ⟨⟨p, hp, hg⟩, ha⟩ => ⟨p, hp, hg, ha⟩, fun ⟨p, hp, hg, ha⟩ => ⟨⟨p, hp, hg⟩, ha⟩⟩

lemma nodup_gone (r : MessageReassembler C) (now : ℕ) (credit : Option ChannelLane → ℕ) :
    ((r.gone now credit).map fun g => g.2.transmission g.1).Nodup := by
  have hids : ((r.gone now credit).map Prod.fst).Nodup :=
    (r.pending.mapValues (r.sample now credit)).nodup.sublist (List.filter_sublist.map Prod.fst)
  refine List.Nodup.of_map LogicalTransmission.id ?_
  rw [List.map_map]
  exact hids

lemma saturatingAdd_maxTtl_pos (now : ℕ) : 0 < saturatingAdd u128Max now maxTtlMs := by
  rw [saturatingAdd, lt_min_iff]
  exact ⟨Nat.add_pos_right now (by decide), by decide⟩

lemma le_flag_extend (r : MessageReassembler C) (now : ℕ) : r.failureTrackingSaturatedUntil ≤
    (r.extendFailureTrackingSaturation now).failureTrackingSaturatedUntil := le_max_left _ _

lemma extend_flag_pos (r : MessageReassembler C) (now : ℕ) :
    (r.extendFailureTrackingSaturation now).failureTrackingSaturatedUntil ≠ 0 :=
  ((saturatingAdd_maxTtl_pos now).trans_le (le_max_right _ _)).ne'

/-- A failure is tracked by a tombstone, or leaves its mark in the horizon of the untracked. -/
lemma markFailedTransmission_cases (r : MessageReassembler C) (t : LogicalTransmission) (now : ℕ) :
    ((t ∈ r.failedIds ∨ now < r.failureTrackingSaturatedUntil) ∧
      r.markFailedTransmission t now = (false, r)) ∨
    r.markFailedTransmission t now = (false, r.extendFailureTrackingSaturation now) ∨
    (t ∉ r.failedIds ∧ r.markFailedTransmission t now = (true, { r with
      failed := r.failed ++ [(t, saturatingAdd u128Max now maxTtlMs)]
      failedIds := insert t r.failedIds })) := by
  rw [markFailedTransmission]
  by_cases huntracked : t ∈ r.failedIds ∨ now < r.failureTrackingSaturatedUntil
  · rw [if_pos huntracked]
    exact Or.inl ⟨huntracked, rfl⟩
  · rw [if_neg huntracked]
    split
    · exact Or.inr (Or.inl rfl)
    · exact Or.inr (Or.inr ⟨fun ht => huntracked (Or.inl ht), rfl⟩)

lemma markExpired_cases (r : MessageReassembler C) (t : LogicalTransmission) (now : ℕ) :
    (r.markExpired t now).failureTrackingSaturatedUntil ≠ 0 ∧
      r.failureTrackingSaturatedUntil ≤ (r.markExpired t now).failureTrackingSaturatedUntil ∨
    t ∉ r.failedIds ∧ r.markExpired t now = { r with
      failed := r.failed ++ [(t, saturatingAdd u128Max now maxTtlMs)]
      failedIds := insert t r.failedIds } := by
  rw [markExpired]
  rcases r.markFailedTransmission_cases t now with ⟨-, heq⟩ | heq | ⟨ht, heq⟩
  · rw [heq]
    exact Or.inl ⟨extend_flag_pos r now, le_flag_extend r now⟩
  · rw [heq]
    exact Or.inl ⟨extend_flag_pos _ now,
      (le_flag_extend r now).trans (le_flag_extend _ now)⟩
  · rw [heq]
    exact Or.inr ⟨ht, rfl⟩

lemma le_flag_foldl (ts : List LogicalTransmission) (r : MessageReassembler C) (now : ℕ) :
    r.failureTrackingSaturatedUntil ≤
      (ts.foldl (fun r t => r.markExpired t now) r).failureTrackingSaturatedUntil := by
  induction ts generalizing r with
  | nil => exact le_rfl
  | cons t ts ih =>
    rw [List.foldl_cons]
    refine le_trans ?_ (ih _)
    rcases r.markExpired_cases t now with ⟨-, hle⟩ | ⟨-, heq⟩
    · exact hle
    · rw [heq]

structure Marked (r r' : MessageReassembler C) (ts : List LogicalTransmission) (now : ℕ) :
    Prop where
  pending : r'.pending = r.pending
  completed : r'.completed = r.completed
  completedIds : r'.completedIds = r.completedIds
  limits : r'.limits = r.limits
  tombs : Tombs r'.failed r'.failedIds
  kept : ∀ e ∈ r.failed, e ∈ r'.failed
  marked : ∀ t ∈ ts, (t, saturatingAdd u128Max now maxTtlMs) ∈ r'.failed
  only : ∀ t ∈ r'.failedIds, t ∈ r.failedIds ∨ t ∈ ts

lemma marked_foldl (hr : Tombs r.failed r.failedIds) {ts : List LogicalTransmission}
    (hnodup : ts.Nodup) (hfresh : ∀ t ∈ ts, t ∉ r.failedIds)
    (hflag : (ts.foldl (fun r t => r.markExpired t now) r).failureTrackingSaturatedUntil = 0) :
    Marked r (ts.foldl (fun r t => r.markExpired t now) r) ts now := by
  induction ts generalizing r with
  | nil => exact ⟨rfl, rfl, rfl, rfl, hr, fun e he => he, by simp, fun t ht => Or.inl ht⟩
  | cons t ts ih =>
    rw [List.nodup_cons] at hnodup
    rw [List.foldl_cons] at hflag ⊢
    rcases r.markExpired_cases t now with ⟨hne, -⟩ | ⟨hfirst, heq⟩
    · have hle := le_flag_foldl ts (r.markExpired t now) now
      omega
    · rw [heq] at hflag ⊢
      have hrest := ih (hr.insert hfirst _) hnodup.2 (fun u hu hmem => ?_) hflag
      · refine ⟨hrest.pending, hrest.completed, hrest.completedIds, hrest.limits, hrest.tombs,
          fun e he => hrest.kept e (List.mem_append_left _ he), fun u hu => ?_, fun u hu => ?_⟩
        · rcases List.mem_cons.1 hu with rfl | hu
          · exact hrest.kept _ (List.mem_append_right _ (List.mem_singleton_self _))
          · exact hrest.marked u hu
        · rcases hrest.only u hu with hu | hu
          · rcases Finset.mem_insert.1 hu with rfl | hu
            · exact Or.inr List.mem_cons_self
            · exact Or.inl hu
          · exact Or.inr (List.mem_cons_of_mem t hu)
      · rcases Finset.mem_insert.1 hmem with rfl | hmem
        · exact hnodup.1 hu
        · exact hfresh u (List.mem_cons_of_mem t hu) hmem

/-- What a sweep leaves open, before it marks what it dropped. -/
def swept (r : MessageReassembler C) (now : ℕ) (credit : Option ChannelLane → ℕ) :
    MessageReassembler C :=
  { r.evictExpiredTerminalHistory now with
    pending := (r.pending.mapValues (r.sample now credit)).retain fun _ p => r.alive now p }

/-- A sweep leaves what is alive, sampled, and a tombstone of every message dropped. -/
lemma Good.sweep_marked (h : r.Good ended clock) (hclock : clock ≤ now)
    (hflag : (r.sweepAt now credit).1.failureTrackingSaturatedUntil = 0) :
    Marked (r.swept now credit) (r.sweepAt now credit).1
      ((r.gone now credit).map fun g => g.2.transmission g.1) now := by
  have hevicted := h.evict hclock
  have htombs : Tombs (r.swept now credit).failed (r.swept now credit).failedIds :=
    hevicted.failed
  have heq : (r.sweepAt now credit).1 = ((r.gone now credit).map fun g =>
      g.2.transmission g.1).foldl (fun r t => r.markExpired t now) (r.swept now credit) := by
    rw [List.foldl_map]
    rfl
  rw [heq] at hflag ⊢
  refine marked_foldl htombs (r.nodup_gone now credit) (fun t ht => ?_) hflag
  obtain ⟨g, hg, rfl⟩ := List.mem_map.1 ht
  obtain ⟨p, hp, hgp, -⟩ := mem_gone.1 hg
  rw [hgp, sample_transmission]
  exact hevicted.notFailed g.1 p hp

lemma get?_swept {id : Uuid} {p : Pending C} : (r.swept now credit).pending.get? id = some p ↔
    ∃ q, r.pending.get? id = some q ∧ p = r.sample now credit q ∧ r.alive now p = true := by
  change ((r.pending.mapValues _).retain _).get? id = some p ↔ _
  rw [BTreeMap.get?_retain, BTreeMap.get?_mapValues, Option.filter_eq_some_iff,
    Option.map_eq_some_iff]
  exact ⟨fun ⟨⟨q, hq, hp⟩, ha⟩ => ⟨q, hq, hp.symm, ha⟩, fun ⟨q, hq, hp, ha⟩ =>
    ⟨⟨q, hq, hp.symm⟩, ha⟩⟩

lemma mem_counted : e ∈ r.counted now credit ↔ ∃ g ∈ r.gone now credit,
    (g.2.failureCharged = false ∧ g.2.peerAttributable = true) ∧
      e = ⟨.expiry, g.2.transmission g.1, now⟩ := by
  rw [counted, List.mem_map]
  constructor
  · rintro ⟨g, hg, rfl⟩
    obtain ⟨hmem, hcounts⟩ := List.mem_filter.1 hg
    exact ⟨g, hmem, by simpa using hcounts, rfl⟩
  · rintro ⟨g, hmem, hcounts, rfl⟩
    exact ⟨g, List.mem_filter.2 ⟨hmem, by simpa using hcounts⟩, rfl⟩

lemma Good.horizon_le_of_open (h : r.Good ended clock) (he : e ∈ ended) {id : Uuid}
    {p : Pending C} (hp : r.pending.get? id = some p) (hcharged : p.failureCharged = false)
    (ht : e.transmission = p.transmission id) : e.horizon ≤ clock := by
  have hid : e.transmission.id = id := by rw [ht, Pending.transmission]
  by_contra hlt
  rcases h.ended_cases he (not_le.1 hlt) with ⟨hcompleted, -⟩ | hfailed | ⟨q, hq, -, hcharged'⟩
  · exact h.notCompleted id p hp (hid ▸ hcompleted)
  · exact h.notFailed id p hp (ht ▸ hfailed)
  · rw [hid, hp] at hq
    cases hq
    rw [hcharged] at hcharged'
    cases hcharged'

lemma Good.sweep (h : r.Good ended clock) (hclock : clock ≤ now)
    (hflag : (r.sweepAt now credit).1.failureTrackingSaturatedUntil = 0) :
    (r.sweepAt now credit).1.Good (ended ++ r.counted now credit) now := by
  have hevicted := h.evict hclock
  have hm := h.sweep_marked hclock hflag
  have hopen : ∀ {id p}, (r.sweepAt now credit).1.pending.get? id = some p →
      ∃ q, r.pending.get? id = some q ∧ p = r.sample now credit q ∧ r.alive now p = true := by
    intro id p hp
    rw [hm.pending] at hp
    exact get?_swept.1 hp
  constructor
  · rw [hm.completed, hm.completedIds]
    exact hevicted.completed
  · exact hm.tombs
  · intro id p hp
    obtain ⟨q, hq, -, -⟩ := hopen hp
    rw [hm.completedIds]
    exact hevicted.notCompleted id q hq
  · intro id p hp ht
    obtain ⟨q, hq, hpq, halive⟩ := hopen hp
    rcases hm.only _ ht with ht | ht
    · rw [hpq, sample_transmission] at ht
      exact hevicted.notFailed id q hq ht
    · obtain ⟨g, hg, hgt⟩ := List.mem_map.1 ht
      obtain ⟨q', hq', hgq, hdead⟩ := mem_gone.1 hg
      have hid : g.1 = id := congrArg LogicalTransmission.id hgt
      rw [hid, hq] at hq'
      cases hq'
      rw [hgq, ← hpq, halive] at hdead
      cases hdead
  · intro e he
    rcases List.mem_append.1 he with he | he
    · exact hevicted.past e he
    · obtain ⟨g, -, -, rfl⟩ := mem_counted.1 he
      exact le_rfl
  · intro e he hnow
    rcases List.mem_append.1 he with he | he
    · have hremembered := hevicted.remembered e he hnow
      have hfailed : e.horizon = saturatingAdd u128Max e.atMs maxTtlMs →
          ((∃ until_, (e.transmission, until_) ∈ (r.evictExpiredTerminalHistory now).failed ∧
            e.horizon ≤ until_) ∨ ∃ p, r.pending.get? e.transmission.id = some p ∧
              p.transmission e.transmission.id = e.transmission ∧ p.failureCharged = true) →
          (∃ until_, (e.transmission, until_) ∈ (r.sweepAt now credit).1.failed ∧
            e.horizon ≤ until_) ∨
            ∃ p, (r.sweepAt now credit).1.pending.get? e.transmission.id = some p ∧
              p.transmission e.transmission.id = e.transmission ∧ p.failureCharged = true := by
        rintro hhorizon (⟨until_, hmem, hle⟩ | ⟨p, hp, ht, hcharged⟩)
        · exact Or.inl ⟨until_, hm.kept _ hmem, hle⟩
        · cases halive : r.alive now (r.sample now credit p) with
          | true =>
            refine Or.inr ⟨r.sample now credit p, ?_, ht, hcharged⟩
            rw [hm.pending]
            exact get?_swept.2 ⟨p, hp, rfl, halive⟩
          | false =>
            -- a charged message that goes leaves a tombstone behind
            have hgone : (e.transmission.id, r.sample now credit p) ∈ r.gone now credit :=
              mem_gone.2 ⟨p, hp, rfl, halive⟩
            refine Or.inl ⟨_, hm.marked e.transmission (List.mem_map.2 ⟨_, hgone, ht⟩), ?_⟩
            have hpast := hevicted.past e he
            rw [hhorizon, saturatingAdd, saturatingAdd]
            omega
      rw [Remembers] at hremembered ⊢
      cases hfate : e.fate with
      | complete =>
        rw [hfate] at hremembered
        rw [hm.completed]
        exact hremembered
      | invalid =>
        rw [hfate] at hremembered
        exact hfailed (by rw [Ended.horizon, hfate]) hremembered
      | expiry =>
        rw [hfate] at hremembered
        exact hfailed (by rw [Ended.horizon, hfate]) hremembered
    · obtain ⟨g, hg, -, rfl⟩ := mem_counted.1 he
      exact Or.inl ⟨_, hm.marked _ (List.mem_map.2 ⟨g, hg, rfl⟩), le_rfl⟩
  · refine List.pairwise_append.2 ⟨h.once, ?_, fun e he c hc heq => ?_⟩
    · have hnodup : (r.counted now credit).Pairwise fun e e' =>
          e.transmission ≠ e'.transmission := by
        rw [counted, List.pairwise_map]
        exact (List.pairwise_map.1 (r.nodup_gone now credit)).sublist List.filter_sublist
      exact hnodup.imp fun hne heq => absurd heq hne
    · obtain ⟨g, hg, ⟨hcharged, -⟩, rfl⟩ := mem_counted.1 hc
      obtain ⟨p, hp, hgp, -⟩ := mem_gone.1 hg
      rw [hgp] at hcharged heq
      exact hevicted.horizon_le_of_open he hp hcharged heq

/-! ### A chunk -/

variable {chunk : Chunk} {charge : C} {peerAttributable : Bool} {carrier : Option ChannelLane}

lemma classify_completed (hfailed : chunk.info.transmission ∉ r.failedIds)
    (hopen : r.pending.get? chunk.info.id = none) (httl : chunk.info.ttlMs ≤ maxTtlMs)
    (hts : chunk.info.tsMs - tsOffsetToleranceMs ≤ now)
    (hnow : now < chunk.info.transmission.expiry) (hshaped : r.Shaped chunk)
    (hcompleted : chunk.info.id ∈ r.completedIds) :
    r.classify chunk now carrier = .error .alreadyCompleted := by
  obtain ⟨htotal, hposition, hchunks, hlen⟩ := hshaped
  have hexpiry : now < saturatingAdd u128Max chunk.info.tsMs chunk.info.ttlMs := hnow
  rw [classify]
  simp only [hopen, Option.any_none, Bool.false_eq_true, hfailed, or_self, if_false,
    not_lt.2 httl, not_lt.2 hts, not_le.2 hexpiry, htotal, not_le.2 hposition, not_lt.2 hchunks,
    not_lt.2 hlen, hcompleted, if_true]

/-- A chunk rejected as evidence is of no failed transmission, nor of a charged message. -/
lemma not_failed_of_invalid {reason : Rejected}
    (h : r.classify chunk now carrier = .error reason) (hinvalid : reason.rejection = .invalid) :
    chunk.info.transmission ∉ r.failedIds ∧
      ∀ p, r.pending.get? chunk.info.id = some p → p.failureCharged = false := by
  rw [classify] at h
  split at h
  · cases h
    cases hinvalid
  · rename_i hnot
    rw [not_or] at hnot
    refine ⟨hnot.2, fun p hp => ?_⟩
    rw [hp] at hnot
    simpa using hnot.1

lemma Good.once_concat (h : r.Good ended now) (hfate : e.atMs = now)
    (hfresh : ∀ e' ∈ ended, e'.transmission = e.transmission → e'.horizon ≤ now) :
    EndsOnce (ended ++ [e]) := by
  refine List.pairwise_append.2 ⟨h.once, List.pairwise_singleton _ _, fun e' he' c hc heq => ?_⟩
  rw [List.mem_singleton.1 hc] at heq ⊢
  rw [hfate]
  exact hfresh e' he' heq

/-- The message a classified chunk joins or opens is of its transmission, and uncharged. -/
lemma joined_spec (hok : r.classify chunk now carrier = .ok ()) (charge : C) (credit : ℕ)
    (peerAttributable : Bool) :
    (r.joined chunk charge now credit peerAttributable carrier).transmission chunk.info.id =
      chunk.info.transmission ∧
    (r.joined chunk charge now credit peerAttributable carrier).failureCharged = false := by
  obtain ⟨⟨hcharged, -⟩, -, -, -, -, -, -, -, hmatch⟩ := classify_ok_iff.1 hok
  rw [joined]
  cases hp : r.pending.get? chunk.info.id with
  | none => exact ⟨rfl, rfl⟩
  | some p =>
    rw [hp] at hmatch
    obtain ⟨-, ⟨hts, httl⟩, -⟩ := Pending.admits_ok_iff.1 hmatch
    exact ⟨LogicalTransmission.ext rfl hts httl, hcharged p hp⟩

/-- A classified chunk stays in an open message of its transmission, or completes it. -/
lemma insertChunk_cases (hok : r.classify chunk now carrier = .ok ()) (charge : C) (credit : ℕ)
    (peerAttributable : Bool) :
    ∃ p : Pending C, p.transmission chunk.info.id = chunk.info.transmission ∧
      p.failureCharged = false ∧
      (r.insertChunk chunk charge now credit peerAttributable carrier =
          (.incomplete, { r with pending := r.pending.insert chunk.info.id p }) ∨
        ∃ retained, r.insertChunk chunk charge now credit peerAttributable carrier =
          (.complete retained, ({ r with pending := r.pending.remove chunk.info.id } :
            MessageReassembler C).markCompleted chunk.info.id chunk.info.transmission.expiry)) := by
  obtain ⟨hjoined, huncharged⟩ := joined_spec hok charge credit
    peerAttributable
  obtain ⟨p, hp⟩ : ∃ p, p = { r.joined chunk charge now credit peerAttributable carrier with
      peerAttributable :=
        (r.joined chunk charge now credit peerAttributable carrier).peerAttributable &&
          peerAttributable
      slots := (r.joined chunk charge now credit peerAttributable carrier).slots.insert
        chunk.position chunk.data } := ⟨_, rfl⟩
  have ht : p.transmission chunk.info.id = chunk.info.transmission := by
    rw [hp]
    exact hjoined
  have hexpiry : saturatingAdd u128Max
      (r.joined chunk charge now credit peerAttributable carrier).tsMs
      (r.joined chunk charge now credit peerAttributable carrier).ttlMs =
        chunk.info.transmission.expiry := by
    rw [← hjoined]
    rfl
  refine ⟨p, ht, hp ▸ huncharged, ?_⟩
  rw [insertChunk]
  simp only [← hp]
  split
  · exact Or.inl rfl
  · rw [hexpiry]
    exact Or.inr ⟨_, rfl⟩

lemma markCompleted_of_room {id : Uuid} {expiry : ℕ} (hid : id ∉ r.completedIds)
    (hroom : r.completed.length < r.limits.maxCompletedIds) : r.markCompleted id expiry = { r with
      completed := r.completed ++ [(id, expiry)]
      completedIds := insert id r.completedIds } := by
  have hsurplus : (r.completed ++ [(id, expiry)]).length - r.limits.maxCompletedIds = 0 := by
    rw [List.length_append, List.length_singleton]
    omega
  rw [markCompleted]
  simp only [if_neg hid, hsurplus, List.drop_zero, List.take_zero, List.foldl_nil]

lemma Remembers.of_open {r' : MessageReassembler C} {id : Uuid} (h : r.Remembers e)
    (hcompleted : ∀ x ∈ r.completed, x ∈ r'.completed) (hfailed : ∀ x ∈ r.failed, x ∈ r'.failed)
    (huncharged : ∀ p, r.pending.get? id = some p → p.failureCharged = false)
    (hother : ∀ j, j ≠ id → r'.pending.get? j = r.pending.get? j) : r'.Remembers e := by
  have hwitness : (∃ until_, (e.transmission, until_) ∈ r.failed ∧ e.horizon ≤ until_) ∨
      (∃ p, r.pending.get? e.transmission.id = some p ∧
        p.transmission e.transmission.id = e.transmission ∧ p.failureCharged = true) →
      (∃ until_, (e.transmission, until_) ∈ r'.failed ∧ e.horizon ≤ until_) ∨
      ∃ p, r'.pending.get? e.transmission.id = some p ∧
        p.transmission e.transmission.id = e.transmission ∧ p.failureCharged = true := by
    rintro (⟨until_, hmem, hle⟩ | ⟨p, hp, ht, hcharged⟩)
    · exact Or.inl ⟨until_, hfailed _ hmem, hle⟩
    · have hid : e.transmission.id ≠ id := by
        intro heq
        rw [huncharged p (heq ▸ hp)] at hcharged
        cases hcharged
      exact Or.inr ⟨p, (hother _ hid).trans hp, ht, hcharged⟩
  rw [Remembers] at h ⊢
  cases hfate : e.fate with
  | complete =>
    rw [hfate] at h
    exact ⟨hcompleted _ h.1, h.2⟩
  | invalid =>
    rw [hfate] at h
    exact hwitness h
  | expiry =>
    rw [hfate] at h
    exact hwitness h

lemma Good.insertChunk (h : r.Good ended now) (hok : r.classify chunk now carrier = .ok ())
    (hroom : r.completed.length < r.limits.maxCompletedIds) (credit : ℕ) :
    (r.insertChunk chunk charge now credit peerAttributable carrier).2.Good (ended ++ ends chunk now
      (r.insertChunk chunk charge now credit peerAttributable carrier).1) now := by
  obtain ⟨⟨hcharged, hfailed⟩, httl, hts, -, -, -, -, hcompleted, -⟩ := classify_ok_iff.1 hok
  obtain ⟨p, ht, huncharged, heq | ⟨retained, heq⟩⟩ := insertChunk_cases hok charge credit
    peerAttributable
  · rw [heq]
    have hget : ∀ {id q}, (r.pending.insert chunk.info.id p).get? id = some q →
        (id = chunk.info.id ∧ q = p) ∨ r.pending.get? id = some q := by
      intro id q hq
      rw [BTreeMap.get?_insert] at hq
      split at hq
      · rename_i hid
        exact Or.inl ⟨hid, (Option.some.inj hq).symm⟩
      · exact Or.inr hq
    have hnil : ended ++ ends chunk now (ReassemblyOutcome.incomplete : ReassemblyOutcome C) =
        ended := List.append_nil ended
    rw [hnil]
    refine ⟨h.completed, h.failed, fun id q hq => ?_, fun id q hq => ?_, h.past,
      fun e he hnow => ?_, h.once⟩
    · rcases hget hq with ⟨rfl, -⟩ | hq
      · exact hcompleted
      · exact h.notCompleted id q hq
    · rcases hget hq with ⟨rfl, rfl⟩ | hq
      · rw [ht]
        exact hfailed
      · exact h.notFailed id q hq
    · refine (h.remembered e he hnow).of_open (fun x hx => hx) (fun x hx => hx) hcharged
        fun j hj => ?_
      change (r.pending.insert chunk.info.id p).get? j = _
      rw [BTreeMap.get?_insert, if_neg hj]
  · have hmark : ({ r with pending := r.pending.remove chunk.info.id } :
        MessageReassembler C).markCompleted chunk.info.id chunk.info.transmission.expiry =
        { r with
          pending := r.pending.remove chunk.info.id
          completed := r.completed ++ [(chunk.info.id, chunk.info.transmission.expiry)]
          completedIds := insert chunk.info.id r.completedIds } :=
      markCompleted_of_room hcompleted hroom
    rw [heq, hmark]
    have hget : ∀ {id q}, (r.pending.remove chunk.info.id).get? id = some q →
        id ≠ chunk.info.id ∧ r.pending.get? id = some q := by
      intro id q hq
      rw [BTreeMap.get?_remove] at hq
      split at hq
      · cases hq
      · rename_i hid
        exact ⟨hid, hq⟩
    refine ⟨h.completed.insert hcompleted _, h.failed, fun id q hq => ?_, fun id q hq => ?_,
      fun e he => ?_, fun e he hnow => ?_, ?_⟩
    · obtain ⟨hid, hq⟩ := hget hq
      change id ∉ insert chunk.info.id r.completedIds
      rw [Finset.mem_insert, not_or]
      exact ⟨hid, h.notCompleted id q hq⟩
    · exact h.notFailed id q (hget hq).2
    · rcases List.mem_append.1 he with he | he
      · exact h.past e he
      · rw [List.mem_singleton.1 he]
    · rcases List.mem_append.1 he with he | he
      · refine (h.remembered e he hnow).of_open (fun x hx => List.mem_append_left _ hx)
          (fun x hx => hx) hcharged fun j hj => ?_
        change (r.pending.remove chunk.info.id).get? j = _
        rw [BTreeMap.get?_remove, if_neg hj]
      · rw [List.mem_singleton.1 he]
        exact ⟨List.mem_append_right _ (List.mem_singleton_self _), httl, hts⟩
    · refine h.once_concat rfl fun e he heq => ?_
      have ht' : e.transmission = chunk.info.transmission := heq
      by_contra hlt
      have hcases := h.ended_cases he (not_le.1 hlt)
      rw [ht'] at hcases
      rcases hcases with ⟨hid, -⟩ | hmem | ⟨q, hq, -, hcharged'⟩
      · exact hcompleted hid
      · exact hfailed hmem
      · rw [hcharged q hq] at hcharged'
        cases hcharged'

/-- A chunk charged as evidence keeps the history, and its charge is the first end. -/
lemma Good.markLogicalFailure (h : r.Good ended now) {reason : Rejected}
    (hreason : r.classify chunk now carrier = .error reason) (hinvalid : reason.rejection = .invalid)
    (hopen : ∀ p, r.pending.get? chunk.info.id = some p →
      p.transmission chunk.info.id = chunk.info.transmission)
    (hshaped : (chunk.info.id, chunk.info.transmission.expiry) ∈ r.completed →
      now < chunk.info.transmission.expiry → r.Shaped chunk)
    (hflag : (r.markLogicalFailure chunk now).2.failureTrackingSaturatedUntil = 0) :
    (r.markLogicalFailure chunk now).2.Good (ended ++
      if (r.markLogicalFailure chunk now).1 then
        [⟨.invalid, chunk.info.transmission, now⟩] else []) now := by
  obtain ⟨hfailed, huncharged⟩ := not_failed_of_invalid hreason hinvalid
  have hnew : ∀ e' : Ended, e' ∈ ended ++ [⟨.invalid, chunk.info.transmission, now⟩] →
      e' ∈ ended ∨ e' = ⟨.invalid, chunk.info.transmission, now⟩ := by
    intro e' he'
    rcases List.mem_append.1 he' with he' | he'
    · exact Or.inl he'
    · exact Or.inr (List.mem_singleton.1 he')
  cases hp : r.pending.get? chunk.info.id with
  | some p =>
    have heq : r.markLogicalFailure chunk now = (true, { r with
        pending := r.pending.insert chunk.info.id { p with failureCharged := true } }) := by
      simp only [MessageReassembler.markLogicalFailure, hp, huncharged p hp, Bool.false_eq_true,
        if_false]
    have hget : ∀ {id q}, (r.pending.insert chunk.info.id
        { p with failureCharged := true }).get? id = some q →
        ∃ q', r.pending.get? id = some q' ∧ q'.transmission id = q.transmission id := by
      intro id q hq
      rw [BTreeMap.get?_insert] at hq
      split at hq
      · rename_i hid
        cases hq
        exact ⟨p, hid ▸ hp, rfl⟩
      · exact ⟨q, hq, rfl⟩
    rw [heq, if_pos rfl]
    refine ⟨h.completed, h.failed, fun id q hq => ?_, fun id q hq => ?_, fun e he => ?_,
      fun e he hnow => ?_, ?_⟩
    · obtain ⟨q', hq', -⟩ := hget hq
      exact h.notCompleted id q' hq'
    · obtain ⟨q', hq', ht⟩ := hget hq
      rw [← ht]
      exact h.notFailed id q' hq'
    · rcases hnew e he with he | rfl
      · exact h.past e he
      · exact le_rfl
    · rcases hnew e he with he | rfl
      · refine (h.remembered e he hnow).of_open (fun x hx => hx) (fun x hx => hx) huncharged
          fun j hj => ?_
        change (r.pending.insert chunk.info.id _).get? j = _
        rw [BTreeMap.get?_insert, if_neg hj]
      · refine Or.inr ⟨{ p with failureCharged := true }, ?_, hopen p hp, rfl⟩
        change (r.pending.insert chunk.info.id _).get? chunk.info.id = _
        rw [BTreeMap.get?_insert, if_pos rfl]
    · exact h.once_concat rfl fun e he ht =>
        h.horizon_le_of_open he hp (huncharged p hp) (ht.trans (hopen p hp).symm)
  | none =>
    have heq : r.markLogicalFailure chunk now =
        r.markFailedTransmission chunk.info.transmission now := by
      simp only [MessageReassembler.markLogicalFailure, hp]
    rw [heq] at hflag ⊢
    rcases r.markFailedTransmission_cases chunk.info.transmission now with ⟨-, hmark⟩ | hmark |
      ⟨-, hmark⟩
    · rw [hmark]
      simpa using h
    · rw [hmark] at hflag
      exact absurd hflag (extend_flag_pos r now)
    · rw [hmark, if_pos rfl]
      refine ⟨h.completed, h.failed.insert hfailed _, h.notCompleted, fun id q hq hmem => ?_,
        fun e he => ?_, fun e he hnow => ?_, ?_⟩
      · rcases Finset.mem_insert.1 hmem with ht | hmem
        · have hid : id = chunk.info.id := congrArg LogicalTransmission.id ht
          have hq' : r.pending.get? id = some q := hq
          rw [hid, hp] at hq'
          cases hq'
        · exact h.notFailed id q hq hmem
      · rcases hnew e he with he | rfl
        · exact h.past e he
        · exact le_rfl
      · rcases hnew e he with he | rfl
        · exact (h.remembered e he hnow).of_open (fun x hx => hx)
            (fun x hx => List.mem_append_left _ hx) huncharged fun j _ => rfl
        · exact Or.inl ⟨_, List.mem_append_right _ (List.mem_singleton_self _), le_rfl⟩
      · refine h.once_concat rfl fun e he heq => ?_
        have ht : e.transmission = chunk.info.transmission := heq
        by_contra hlt
        have hcases := h.ended_cases he (not_le.1 hlt)
        rw [ht] at hcases
        rcases hcases with ⟨hid, hmem, httl, hts, hnow⟩ | hmem | ⟨q, hq, -⟩
        · -- a delivered transmission that is well shaped is dropped as delivered
          rw [classify_completed hfailed hp httl hts hnow (hshaped hmem hnow) hid] at hreason
          cases hreason
          cases hinvalid
        · exact hfailed hmem
        · have hq' : r.pending.get? chunk.info.id = some q := hq
          rw [hp] at hq'
          cases hq'

/-! ### Runs -/

variable {c : Call C} {calls : List (Call C)}

lemma flag_insertChunk (r : MessageReassembler C) (chunk : Chunk) (charge : C) (now credit : ℕ)
    (peerAttributable : Bool) (carrier : Option ChannelLane) :
    (r.insertChunk chunk charge now credit peerAttributable carrier).2.failureTrackingSaturatedUntil =
      r.failureTrackingSaturatedUntil := by
  rw [insertChunk]
  simp only
  split <;> rfl

lemma le_flag_markLogicalFailure (r : MessageReassembler C) (chunk : Chunk) (now : ℕ) :
    r.failureTrackingSaturatedUntil ≤
      (r.markLogicalFailure chunk now).2.failureTrackingSaturatedUntil := by
  rw [markLogicalFailure]
  split
  · split <;> exact le_rfl
  · rcases r.markFailedTransmission_cases chunk.info.transmission now with ⟨-, heq⟩ | heq | ⟨-, heq⟩
    · rw [heq]
    · rw [heq]
      exact le_flag_extend r now
    · rw [heq]

/-- What a chunk does after the sweep: it is accepted, or rejected as evidence, or dropped. -/
lemma handleChargedAt_cases (r : MessageReassembler C) (chunk : Chunk) (charge : C) (now : ℕ)
    (credit : Option ChannelLane → ℕ) (peerAttributable : Bool) (carrier : Option ChannelLane)
    {s : MessageReassembler C} (hs : (r.sweepAt now credit).1 = s) :
    (s.classify chunk now carrier = .ok () ∧
      r.handleChargedAt chunk charge now credit peerAttributable carrier =
        (((s.insertChunk chunk charge now (credit carrier) peerAttributable carrier).1,
          (r.sweepAt now credit).2),
          (s.insertChunk chunk charge now (credit carrier) peerAttributable carrier).2)) ∨
    (∃ reason, s.classify chunk now carrier = .error reason ∧ reason.rejection = .invalid ∧
      r.handleChargedAt chunk charge now credit peerAttributable carrier =
        ((.rejected (if (s.markLogicalFailure chunk now).1 then .invalid else .replay),
          (r.sweepAt now credit).2), (s.markLogicalFailure chunk now).2)) ∨
    r.handleChargedAt chunk charge now credit peerAttributable carrier =
      ((.rejected .replay, (r.sweepAt now credit).2), s) := by
  subst hs
  cases hclassify : (r.sweepAt now credit).1.classify chunk now carrier with
  | ok u =>
    refine Or.inl ⟨rfl, ?_⟩
    simp only [handleChargedAt, hclassify]
  | error reason =>
    cases hrejection : reason.rejection with
    | invalid =>
      refine Or.inr (Or.inl ⟨reason, rfl, hrejection, ?_⟩)
      simp only [handleChargedAt, hclassify, hrejection]
    | replay =>
      refine Or.inr (Or.inr ?_)
      simp only [handleChargedAt, hclassify, hrejection]

lemma Good.call (h : r.Good ended clock) (hclock : clock ≤ c.now) (hplain : r.Plain c)
    (hroom : (r.completed.filter fun e => c.now < e.2).length < r.limits.maxCompletedIds)
    (hflag : (r.call c).1.failureTrackingSaturatedUntil = 0) :
    (r.call c).1.Good (ended ++ (r.call c).2) c.now := by
  cases c with
  | sweep now credit => exact h.sweep hclock hflag
  | handle chunk charge now credit peerAttributable carrier =>
    obtain ⟨s, hs⟩ : ∃ s, (r.sweepAt now credit).1 = s := ⟨_, rfl⟩
    have hcases := r.handleChargedAt_cases chunk charge now credit peerAttributable carrier hs
    rw [MessageReassembler.call] at hflag ⊢
    simp only at hflag ⊢
    have hswept : s.failureTrackingSaturatedUntil = 0 := by
      rcases hcases with ⟨-, heq⟩ | ⟨reason, -, -, heq⟩ | heq
      · rw [heq] at hflag
        exact (flag_insertChunk s chunk charge now _ _ _).symm.trans hflag
      · rw [heq] at hflag
        exact Nat.le_zero.1 ((le_flag_markLogicalFailure s chunk now).trans hflag.le)
      · rw [heq] at hflag
        exact hflag
    have hgood : s.Good (ended ++ r.counted now credit) now := by
      subst hs
      exact h.sweep hclock hswept
    have hm : Marked (r.swept now credit) s
        ((r.gone now credit).map fun g => g.2.transmission g.1) now := by
      subst hs
      exact h.sweep_marked hclock hswept
    have hcompleted : s.completed = r.completed.filter fun e => now < e.2 := hm.completed
    have hlimits : s.limits = r.limits := hm.limits
    rw [← List.append_assoc]
    rcases hcases with ⟨hok, heq⟩ | ⟨reason, hreason, hinvalid, heq⟩ | heq
    · rw [heq]
      refine hgood.insertChunk hok ?_ _
      rw [hcompleted, hlimits]
      exact hroom
    · rw [heq]
      rw [heq] at hflag
      obtain ⟨hopen, hshaped⟩ := hplain fun e he ht => by
        by_contra hnow
        -- the tombstone of a failed transmission would still stand
        have hmem : e ∈ s.failed := hm.kept e (List.mem_filter.2 ⟨he, by simpa using hnow⟩)
        refine (not_failed_of_invalid hreason hinvalid).1 ((hgood.failed.mem _).2 ?_)
        rw [← ht]
        exact List.mem_map_of_mem hmem
      have hends : ended ++ r.counted now credit ++ ends chunk now (C := C) (.rejected
          (if (s.markLogicalFailure chunk now).1 then .invalid else .replay)) =
          ended ++ r.counted now credit ++ if (s.markLogicalFailure chunk now).1 then
            [⟨.invalid, chunk.info.transmission, now⟩] else [] := by
        cases (s.markLogicalFailure chunk now).1 <;> rfl
      change Good _ (ended ++ r.counted now credit ++ ends chunk now (C := C) (.rejected
        (if (s.markLogicalFailure chunk now).1 then .invalid else .replay))) now
      rw [hends]
      refine hgood.markLogicalFailure hreason hinvalid (fun p hp => ?_) (fun hmem hnow => ?_) hflag
      · have huncharged := (not_failed_of_invalid hreason hinvalid).2 p hp
        rw [hm.pending] at hp
        obtain ⟨q, hq, rfl, halive⟩ := get?_swept.1 hp
        exact hopen q hq huncharged halive
      · rw [hcompleted] at hmem
        have hshape := hshaped (List.mem_filter.1 hmem).1 hnow
        rw [Shaped, hlimits]
        exact hshape
    · rw [heq]
      have hnil : ended ++ r.counted now credit ++ ends chunk now
          (ReassemblyOutcome.rejected .replay : ReassemblyOutcome C) =
            ended ++ r.counted now credit := List.append_nil _
      rw [hnil]
      exact hgood

lemma Good.run (h : r.Good ended clock) (htimed : Timed clock calls) (htracked : r.Unsaturated calls)
    (hplain : r.AllPlain calls) : EndsOnce (ended ++ r.run calls) := by
  induction calls generalizing r ended clock with
  | nil =>
    rw [MessageReassembler.run, List.append_nil]
    exact h.once
  | cons call calls ih =>
    obtain ⟨hclock, hrest⟩ := htimed
    obtain ⟨hroom, hflag, htracked'⟩ := htracked
    obtain ⟨hcall, hplain'⟩ := hplain
    rw [MessageReassembler.run, ← List.append_assoc]
    exact ih (h.call hclock hcall hroom hflag) hrest htracked' hplain'

/-- **One end a transmission**, while tracking is not saturated, when every chunk for an open
message comes under its metadata and every chunk of a delivered transmission is well shaped. -/
theorem ends_once (limits : ReassemblyLimits) (clock : ℕ) (calls : List (Call C))
    (htimed : Timed clock calls)
    (htracked : (withLimits limits : MessageReassembler C).Unsaturated calls)
    (hplain : (withLimits limits : MessageReassembler C).AllPlain calls) :
    EndsOnce ((withLimits limits : MessageReassembler C).run calls) :=
  (good_withLimits limits clock).run htimed htracked hplain

/-- A message of one chunk, delivered, and the same chunk once more. -/
theorem ends_once_duplicate :
    EndsOnce ((withLimits .production : MessageReassembler Unit).run
      [.handle ⟨0, 1, [], ⟨1#128, 0, 1000⟩⟩ () 0 (fun _ => 0) true none,
        .handle ⟨0, 1, [], ⟨1#128, 0, 1000⟩⟩ () 1 (fun _ => 0) true none]) := by
  refine ends_once .production 0 _ ⟨le_rfl, Nat.zero_le 1, trivial⟩
    ⟨by decide, rfl, by decide, rfl, trivial⟩ ⟨fun _ => ⟨fun p hp => ?_, fun hmem => ?_⟩,
      fun _ => ⟨fun p hp => ?_, fun _ _ => by unfold Shaped; decide⟩, trivial⟩
  · cases hp
  · cases hmem
  · cases hp

/-- A misshapen chunk of a delivered transmission is charged to it. -/
theorem delivered_then_charged :
    ∃ calls : List (Call Unit), Timed 0 calls ∧
      (withLimits .production : MessageReassembler Unit).Unsaturated calls ∧
      (withLimits .production : MessageReassembler Unit).run calls =
        [⟨.complete, ⟨1#128, 0, 1000⟩, 0⟩, ⟨.invalid, ⟨1#128, 0, 1000⟩, 1⟩] ∧
      ¬ EndsOnce ((withLimits .production : MessageReassembler Unit).run calls) := by
  refine ⟨[.handle ⟨0, 1, [], ⟨1#128, 0, 1000⟩⟩ () 0 (fun _ => 0) true none,
    .handle ⟨1, 1, [], ⟨1#128, 0, 1000⟩⟩ () 1 (fun _ => 0) true none],
    ⟨le_rfl, Nat.zero_le 1, trivial⟩, ⟨by decide, rfl, by decide, rfl, trivial⟩, rfl, fun h => ?_⟩
  have hlate : (1000 : ℕ) ≤ 1 := (List.pairwise_cons.1 h).1 _ (List.mem_singleton_self _) rfl
  omega

end MessageReassembler

end Rings.Chunks
