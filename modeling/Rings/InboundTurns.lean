import Rings.InboundActor
import Mathlib.Data.List.TakeWhile
import Mathlib.Tactic

/-!
What a turn of the inbound actor does.

The barrier answers by its index of sequences, a queue that ascends keeps ascending, and each turn
of the actor is a change of one queue, of the events at work and of the barrier.
-/

namespace Rings.Inbound

open Chunks InboundLane
open scoped List

/-! ### The barrier -/

namespace UnfinishedReassembly

variable {u : UnfinishedReassembly}

/-- The two indices hold the same events. -/
def Indexed (u : UnfinishedReassembly) : Prop :=
  ∀ category sequence, ((u.byCategory.get? category).bind (BTreeMap.get? · sequence)).isSome ↔
    u.category.get? sequence = some category

lemma indexed_empty : empty.Indexed := by
  intro category sequence
  simp [empty, BTreeMap.get?, BTreeMap.empty]

lemma category_begin_ (sequence : ℕ) (category : InboundLane) (k : ℕ) :
    (u.begin_ sequence category).category.get? k =
      if k = sequence then some category else u.category.get? k :=
  BTreeMap.get?_insert _ _ _ _

lemma Indexed.begin_ (hu : u.Indexed) {sequence : ℕ} (hnew : u.category.get? sequence = none)
    (category : InboundLane) : (u.begin_ sequence category).Indexed := by
  intro c k
  rw [category_begin_]
  have hu' := hu c k
  simp only [UnfinishedReassembly.begin_, BTreeMap.get?_insert]
  by_cases hc : c = category
  · subst hc
    rw [if_pos rfl, Option.bind_some, BTreeMap.get?_insert]
    by_cases hk : k = sequence
    · simp [hk]
    · rw [if_neg hk, if_neg hk, ← hu']
      cases u.byCategory.get? c with
      | none => simp [BTreeMap.get?, BTreeMap.empty]
      | some m => simp
  · rw [if_neg hc, hu']
    by_cases hk : k = sequence
    · subst hk
      rw [hnew, if_pos rfl]
      simp [Ne.symm hc]
    · rw [if_neg hk]

lemma category_end_ (sequence k : ℕ) :
    (u.end_ sequence).category.get? k = if k = sequence then none else u.category.get? k := by
  unfold end_
  cases h : u.category.get? sequence with
  | none =>
    by_cases hk : k = sequence
    · simp [hk, h]
    · simp [hk]
  | some c => exact BTreeMap.get?_remove _ _ _

lemma category_of_end_ {sequence k : ℕ} {category : InboundLane}
    (h : (u.end_ sequence).category.get? k = some category) :
    u.category.get? k = some category := by
  rw [category_end_] at h
  split at h
  · cases h
  · exact h

lemma Indexed.end_ (hu : u.Indexed) (sequence : ℕ) : (u.end_ sequence).Indexed := by
  intro c k
  rw [category_end_]
  have hu' := hu c k
  unfold UnfinishedReassembly.end_
  cases h : u.category.get? sequence with
  | none =>
    by_cases hk : k = sequence
    · subst hk
      simp [hu', h]
    · simp [hu', hk]
  | some d =>
    have hd := (hu d sequence).2 h
    cases hget : u.byCategory.get? d with
    | none => simp [hget] at hd
    | some m =>
      have hlookup : ∀ n : BTreeMap InboundLane (BTreeMap ℕ Unit),
          (n.get? d).bind (BTreeMap.get? · k) = (m.remove sequence).get? k →
          (c ≠ d → n.get? c = u.byCategory.get? c) →
          (((n.get? c).bind (BTreeMap.get? · k)).isSome ↔
            (if k = sequence then none else u.category.get? k) = some c) := by
        intro n hn hne
        by_cases hc : c = d
        · subst hc
          rw [hn, BTreeMap.get?_remove]
          by_cases hk : k = sequence
          · simp [hk]
          · rw [if_neg hk, if_neg hk, ← hu', hget, Option.bind_some]
        · rw [hne hc, hu']
          by_cases hk : k = sequence
          · subst hk
            simp [h, Ne.symm hc]
          · rw [if_neg hk]
      simp only [hget]
      split
      · rename_i hsize
        refine hlookup _ ?_ fun hc => by rw [BTreeMap.get?_remove, if_neg hc]
        rw [BTreeMap.get?_remove, if_pos rfl, Option.bind_none]
        have hnil : (m.remove sequence).entries = [] := List.eq_nil_of_length_eq_zero hsize
        rw [BTreeMap.get?, hnil, List.lookup_nil]
      · refine hlookup _ ?_ fun hc => by rw [BTreeMap.get?_insert, if_neg hc]
        rw [BTreeMap.get?_insert, if_pos rfl, Option.bind_some]

lemma Indexed.blocks_iff (hu : u.Indexed) {lane : InboundLane} {sequence : ℕ} :
    u.blocks lane sequence = true ↔ ∃ k c, u.category.get? k = some c ∧ k < sequence ∧
      (c = lane ∨ c = .reassembly) := by
  have hfirst : ∀ c, ((u.byCategory.get? c).bind BTreeMap.first?).any
      (fun earliest => earliest.1 < sequence) = true ↔
      ∃ k, u.category.get? k = some c ∧ k < sequence := by
    intro c
    constructor
    · intro h
      obtain ⟨⟨k, v⟩, hk, hlt⟩ := Option.any_eq_true _ _ |>.1 h
      obtain ⟨m, hm, hf⟩ := Option.bind_eq_some_iff.1 hk
      refine ⟨k, (hu c k).1 ?_, by simpa using hlt⟩
      rw [hm, Option.bind_some, BTreeMap.get?_of_first? hf]
      rfl
    · rintro ⟨k, hk, hlt⟩
      have hget := (hu c k).2 hk
      cases hm : u.byCategory.get? c with
      | none => simp [hm] at hget
      | some m =>
        rw [hm, Option.bind_some] at hget
        obtain ⟨v, hv⟩ := Option.isSome_iff_exists.1 hget
        rw [Option.bind_some]
        cases hf : m.first? with
        | none => simp [BTreeMap.get?_eq_none_of_first? hf] at hv
        | some kv =>
          have := BTreeMap.le_of_first? hf hv
          simp only [Option.any_some, decide_eq_true_eq]
          omega
  simp only [blocks, List.any_cons, List.any_nil, Bool.or_false, Bool.or_eq_true, hfirst]
  constructor
  · rintro (⟨k, hk, hlt⟩ | ⟨k, hk, hlt⟩)
    · exact ⟨k, lane, hk, hlt, Or.inl rfl⟩
    · exact ⟨k, _, hk, hlt, Or.inr rfl⟩
  · rintro ⟨k, c, hk, hlt, rfl | rfl⟩
    · exact Or.inl ⟨k, hk, hlt⟩
    · exact Or.inr ⟨k, hk, hlt⟩

end UnfinishedReassembly

/-! ### The queues -/

namespace InboundQueue

variable {M : Type*} {queue l₁ l₂ : InboundQueue M} {e : InboundEvent M} {n : ℕ}

/-- The sequences of a lane ascend. -/
def Ascending (queue : InboundQueue M) : Prop :=
  queue.Pairwise fun x y => x.sequence < y.sequence

lemma ascending_append_cons {x : InboundQueueEntry M} :
    Ascending (l₁ ++ x :: l₂) ↔ Ascending (l₁ ++ l₂) ∧ (∀ y ∈ l₁, y.sequence < x.sequence) ∧
      ∀ y ∈ l₂, x.sequence < y.sequence := by
  simp only [Ascending, List.pairwise_append, List.pairwise_cons, List.mem_cons]
  constructor
  · rintro ⟨h1, ⟨h2, h3⟩, h4⟩
    exact ⟨⟨h1, h3, fun a ha b hb => h4 a ha b (Or.inr hb)⟩,
      fun y hy => h4 y hy x (Or.inl rfl), h2⟩
  · rintro ⟨⟨h1, h3, h4⟩, h5, h2⟩
    refine ⟨h1, ⟨h2, h3⟩, ?_⟩
    rintro a ha b (rfl | hb)
    · exact h5 a ha
    · exact h4 a ha b hb

/-- A place is the only one of its sequence. -/
lemma mem_append_iff {x : InboundQueueEntry M} (hq : Ascending (l₁ ++ x :: l₂))
    (y : InboundQueueEntry M) : y ∈ l₁ ++ l₂ ↔ y ∈ l₁ ++ x :: l₂ ∧ y.sequence ≠ x.sequence := by
  obtain ⟨-, hlow, hhigh⟩ := ascending_append_cons.1 hq
  simp only [List.mem_append, List.mem_cons]
  constructor
  · rintro (hy | hy)
    · exact ⟨Or.inl hy, (hlow y hy).ne⟩
    · exact ⟨Or.inr (Or.inr hy), (hhigh y hy).ne'⟩
  · rintro ⟨hy | rfl | hy, hne⟩
    · exact Or.inl hy
    · exact absurd rfl hne
    · exact Or.inr hy

lemma exists_sequence_cons {x : InboundQueueEntry M} :
    (∃ y ∈ l₁ ++ x :: l₂, y.sequence = n) ↔ x.sequence = n ∨ ∃ y ∈ l₁ ++ l₂, y.sequence = n := by
  simp only [List.mem_append, List.mem_cons, or_and_right, exists_or, exists_eq_left]
  exact or_left_comm

lemma fill_append_cons (h : ∀ y ∈ l₁, y.sequence ≠ e.sequence) {x : InboundQueueEntry M}
    (hx : x.sequence = e.sequence) :
    fill e (l₁ ++ x :: l₂) = l₁ ++ ⟨e.sequence, some e⟩ :: l₂ := by
  induction l₁ with
  | nil => simp [fill, hx]
  | cons y l₁ ih =>
    simp only [List.cons_append, fill, if_neg (h y (by simp))]
    rw [ih fun z hz => h z (List.mem_cons_of_mem _ hz)]

/-- Committing to a reserved place fills it. -/
lemma pushReady_filled {x : InboundQueueEntry M} (hq : Ascending (l₁ ++ x :: l₂))
    (hx : x.sequence = e.sequence) :
    (l₁ ++ x :: l₂ : InboundQueue M).pushReady e = l₁ ++ ⟨e.sequence, some e⟩ :: l₂ := by
  obtain ⟨-, hlt, -⟩ := ascending_append_cons.1 hq
  unfold pushReady
  rw [if_pos (by simp [hx]), fill_append_cons (fun y hy => ?_) hx]
  have := hlt y hy
  omega

lemma lt_of_mem_dropWhile (hq : Ascending queue) (hne : ∀ y ∈ queue, y.sequence ≠ n) :
    ∀ y ∈ queue.dropWhile fun queued => queued.sequence < n, n < y.sequence := by
  induction queue with
  | nil => simp
  | cons y queue ih =>
    obtain ⟨hy, hqueue⟩ := List.pairwise_cons.1 hq
    have hney := hne y (by simp)
    rw [List.dropWhile_cons]
    split
    · exact ih hqueue fun z hz => hne z (List.mem_cons_of_mem _ hz)
    · rename_i hle
      have hle : ¬ y.sequence < n := by simpa using hle
      rintro z (_ | ⟨_, hz⟩)
      · omega
      · have := hy z hz
        omega

/-- A message without a place of its own is inserted in the order of sequences. -/
lemma pushReady_inserted (hq : Ascending queue) (hne : ∀ y ∈ queue, y.sequence ≠ e.sequence) :
    ∃ l₁ l₂, queue = l₁ ++ l₂ ∧ queue.pushReady e = l₁ ++ ⟨e.sequence, some e⟩ :: l₂ ∧
      (∀ y ∈ l₁, y.sequence < e.sequence) ∧ ∀ y ∈ l₂, e.sequence < y.sequence := by
  refine ⟨queue.takeWhile fun queued => queued.sequence < e.sequence,
    queue.dropWhile fun queued => queued.sequence < e.sequence,
    (List.takeWhile_append_dropWhile ..).symm, ?_, fun y hy => ?_, ?_⟩
  · unfold pushReady
    rw [if_neg]
    simpa using hne
  · simpa using List.mem_takeWhile_imp hy
  · exact lt_of_mem_dropWhile hq hne

lemma cancel_append_cons {x : InboundQueueEntry M} (hq : Ascending (l₁ ++ x :: l₂)) :
    (l₁ ++ x :: l₂ : InboundQueue M).cancel x.sequence = l₁ ++ l₂ := by
  obtain ⟨-, hlt, -⟩ := ascending_append_cons.1 hq
  unfold cancel
  rw [List.eraseP_append_right _ fun y hy => ?_, List.eraseP_cons_of_pos (by simp)]
  have := hlt y hy
  simp only [decide_eq_true_eq]
  omega

def events (queue : InboundQueue M) : List (InboundEvent M) :=
  queue.filterMap InboundQueueEntry.event

@[simp] lemma events_append : (l₁ ++ l₂ : InboundQueue M).events = l₁.events ++ l₂.events :=
  List.filterMap_append

@[simp] lemma events_cons_some : events (⟨n, some e⟩ :: queue) = e :: queue.events := rfl

@[simp] lemma events_cons_none : events (⟨n, none⟩ :: queue) = queue.events := rfl

@[simp] lemma events_nil : events ([] : InboundQueue M) = [] := rfl

lemma mem_events : e ∈ queue.events ↔ ∃ x ∈ queue, x.event = some e := List.mem_filterMap

end InboundQueue

/-! ### What a turn of the actor does -/

namespace InboundActor

variable {M : Type*} {a : InboundActor M}

@[simp] lemma queues_setQueue (lane : InboundLane) (queue : InboundQueue M) :
    (a.setQueue lane queue).queues = Function.update a.queues lane queue := rfl

@[simp] lemma active_setQueue (lane : InboundLane) (queue : InboundQueue M) :
    (a.setQueue lane queue).active = a.active := rfl

lemma handleCommand_pending (n : ℕ) (lane category : InboundLane) :
    a.handleCommand (.pending n lane category) = { a with
      queues := Function.update a.queues lane ((a.queues lane).pushPending n)
      unfinished :=
        if lane = .reassembly then a.unfinished.begin_ n category else a.unfinished } := by
  simp only [handleCommand]
  split <;> rfl

lemma handleCommand_cancel (n : ℕ) (lane : InboundLane) :
    a.handleCommand (.cancel n lane) = { a with
      queues := Function.update a.queues lane ((a.queues lane).cancel n)
      unfinished := if lane = .reassembly then a.unfinished.end_ n else a.unfinished } := by
  simp only [handleCommand]
  split <;> rfl

lemma handleCompletion_eq (completion : InboundTaskCompletion M) :
    a.handleCompletion completion =
      let freed := { a with
        activeLanes := Function.update a.activeLanes completion.lane none
        unfinished := if completion.lane = .reassembly then a.unfinished.end_ completion.sequence
          else a.unfinished }
      match completion.next with
      | some next => freed.setQueue next.lane ((freed.queues next.lane).pushReady next)
      | none => freed := by
  unfold handleCompletion
  split <;> rfl

/-- A dispatched lane was idle, and its front event ready and not behind the barrier. -/
lemma dispatchLane_cases (a : InboundActor M) (lane : InboundLane) :
    a.dispatchLane lane = a ∨ ∃ n e queue, a.queues lane = ⟨n, some e⟩ :: queue ∧
      a.activeLanes lane = none ∧
      (lane ≠ .reassembly → a.unfinished.blocks lane n = false) ∧
      a.dispatchLane lane = { a.setQueue lane queue with
        active := a.active ++ [e]
        activeLanes := Function.update a.activeLanes lane (some n) } := by
  unfold dispatchLane
  split
  · exact Or.inl rfl
  · rename_i hidle
    rcases hq : a.queues lane with _ | ⟨⟨n, _ | e⟩, queue⟩
    · exact Or.inl rfl
    · left
      simp only [InboundQueue.frontSequence, List.head?_cons, Option.map_some, InboundQueue.pop]
      split <;> rfl
    · simp only [InboundQueue.frontSequence, List.head?_cons, Option.map_some, InboundQueue.pop]
      split
      · exact Or.inl rfl
      · rename_i hblocks
        refine Or.inr ⟨n, e, queue, rfl, by simpa using hidle, fun hlane => ?_, rfl⟩
        simpa [hlane] using hblocks

end InboundActor

/-- A message's chunks share one lane, so a completed message names the lane of the chunk that
completed it. -/
lemma carrier_of_complete {C : Type*} {r r' : MessageReassembler C} {chunk : Chunk} {charge : C}
    {now expired : ℕ} {credit : Option ChannelLane → ℕ} {attributable : Bool}
    {carrier : Option ChannelLane} {retained : RetainedReassembly C}
    (h : r.handleChargedAt chunk charge now credit attributable carrier =
      ((.complete retained, expired), r')) : retained.carrier = carrier := by
  unfold MessageReassembler.handleChargedAt at h
  generalize r.sweepAt now credit = swept at h
  obtain ⟨r, n⟩ := swept
  cases hclass : r.classify chunk now carrier with
  | error reason =>
    simp only [hclass] at h
    cases hr : reason.rejection <;> simp [hr] at h
  | ok =>
    simp only [hclass, MessageReassembler.insertChunk] at h
    split at h
    · simp at h
    · simp only [Prod.mk.injEq, ReassemblyOutcome.complete.injEq] at h
      obtain ⟨⟨rfl, -⟩, -⟩ := h
      simp only [MessageReassembler.joined]
      cases hp : r.pending.get? chunk.info.id with
      | none => rfl
      | some p =>
        have hok := hclass
        rw [MessageReassembler.classify_ok_iff, hp] at hok
        obtain ⟨-, -, -, -, -, -, -, -, hadmits⟩ := hok
        exact (Pending.admits_ok_iff.1 hadmits).2.2.1

/-- Only a chunk hands a message on: in its own category, at its own sequence. -/
lemma processEvent_spec {M C : Type*} (r : MessageReassembler C) (charge : C) (e : InboundEvent M)
    (env : EventEnv M) :
    (processEvent r charge e env).1.lane = e.lane ∧
      (processEvent r charge e env).1.sequence = e.sequence ∧
      ∀ m, (processEvent r charge e env).1.next = some m → e.lane = .reassembly ∧
        m.sequence = e.sequence ∧ m.lane ≠ .reassembly ∧
        (e.category = m.lane ∨ e.category = .reassembly) := by
  unfold processEvent
  split
  · rename_i hcond
    refine ⟨rfl, rfl, fun m hm => ?_⟩
    have hlane : e.lane = .reassembly := by simpa using (Bool.and_eq_true_iff.1 hcond).2
    refine ⟨hlane, ?_⟩
    simp only [processChunkEvent] at hm
    cases hmsg : e.message with
    | logical c x => simp [hmsg] at hm
    | chunk chunk =>
      simp only [hmsg] at hm
      rcases hr : r.handleChargedAt chunk charge env.now env.credit env.authenticated e.carrier
        with ⟨⟨outcome, expired⟩, r'⟩
      simp only [hr] at hm
      rcases outcome with _ | retained | _
      · simp at hm
      · rcases hdec : env.decode retained.bytes with _ | ⟨c⟩ | ⟨c, x⟩
        · simp [hdec] at hm
        · simp [hdec] at hm
        · simp only [hdec] at hm
          split at hm
          · simp at hm
          · rename_i hadmit
            simp only [Option.some.injEq] at hm
            subst hm
            have hne := Message.lane_logical_ne c x
            refine ⟨rfl, hne, ?_⟩
            have hcarrier := carrier_of_complete hr
            rw [hcarrier] at hadmit
            rw [InboundEvent.category, hlane]
            refine category_of_admitsCarrier ?_ hne
            simp only [Bool.or_eq_true, Bool.not_eq_true', not_or] at hadmit
            simpa using hadmit.1
      · simp at hm
  · exact ⟨rfl, rfl, fun m hm => by simp at hm⟩

end Rings.Inbound
