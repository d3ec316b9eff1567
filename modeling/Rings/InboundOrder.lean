import Rings.InboundTurns
import Rings.PerLane

/-!
Order and progress of the inbound actor.

A sequence the actor holds in no lane is still behind its ticket in the channel, and a chunk stays
in the barrier from its ticket to the step that hands over its message. So a lane that starts a
sequence has no earlier message to come.
-/

namespace Rings.Inbound

open Chunks InboundLane
open scoped List

/-! ### The invariant -/

namespace InboundCommand

variable {M : Type*}

def sequence : InboundCommand M → ℕ
  | pending n _ _ => n
  | ready e => e.sequence
  | cancel n _ => n

def answer? : InboundCommand M → Option (InboundLane × ℕ)
  | pending _ _ _ => none
  | ready e => some (e.lane, e.sequence)
  | cancel n lane => some (lane, n)

def event? : InboundCommand M → Option (InboundEvent M)
  | ready e => some e
  | _ => none

/-- The command names the lane, and the category, its sequence was reserved for. -/
def Ticketed (reserved : List (InboundLane × InboundLane)) : InboundCommand M → Prop
  | pending n lane category => reserved[n]? = some (lane, category)
  | ready e => reserved[e.sequence]? = some (e.lane, e.category)
  | cancel n lane => ∃ category, reserved[n]? = some (lane, category)

end InboundCommand

namespace EnqueueTask

variable {M : Type*}

def key (t : EnqueueTask M) : InboundLane × ℕ := (t.ticket.lane, t.ticket.sequence)

end EnqueueTask

namespace Connection

variable {M C : Type*} (s : Connection M C)

def answers : List (InboundLane × ℕ) :=
  s.channel.filterMap InboundCommand.answer? ++ s.tasks.map EnqueueTask.key

/-- The place of a sequence is not filled yet. -/
def Vacant (lane : InboundLane) (n : ℕ) : Prop :=
  (∃ category, .pending n lane category ∈ s.channel) ∨ ⟨n, none⟩ ∈ s.actor.queues lane

def waiting : List (InboundEvent M) :=
  s.channel.filterMap InboundCommand.event? ++
    InboundLane.all.flatMap fun lane => (s.actor.queues lane).events

/-- An event of the reassembly lane that the actor holds. -/
def HoldsChunk (n : ℕ) : Prop :=
  (∃ x ∈ s.actor.queues .reassembly, x.sequence = n) ∨
    ∃ e ∈ s.actor.active, e.lane = .reassembly ∧ e.sequence = n

/-- Commands, tasks and commits stand at the sequences reserved for them. -/
structure Tickets : Prop where
  length : s.log.reserved.length = s.sender.nextSequence
  commands : ∀ c ∈ s.channel, c.Ticketed s.log.reserved
  tasks : ∀ t ∈ s.tasks,
    s.log.reserved[t.ticket.sequence]? = some (t.ticket.lane, t.event.category)
  committed : ∀ e ∈ s.log.committed, s.log.reserved[e.sequence]? = some (e.lane, e.category)
  committedOnce : (s.tasks.map (·.ticket.sequence) ++ s.log.committed.map (·.sequence)).Nodup

/-- One answer is to come for each vacant place. -/
structure Answered : Prop where
  answered : ∀ lane n, (lane, n) ∈ s.answers ↔ s.Vacant lane n
  answersOnce : s.answers.Nodup

/-- A sequence on its way is above every one before it, and the queues ascend. -/
structure Queued : Prop where
  channel : s.channel.Pairwise fun c c' =>
    ∀ n lane category, c' = .pending n lane category → c.sequence < n
  fresh : ∀ n lane category, .pending n lane category ∈ s.channel →
    ∀ l, ∀ x ∈ s.actor.queues l, x.sequence < n
  ascending : ∀ lane, (s.actor.queues lane).Ascending
  held : ∀ lane, ∀ x ∈ s.actor.queues lane, ∀ e, x.event = some e →
    e.sequence = x.sequence ∧ e.lane = lane

/-- No event is lost or made up. -/
structure Conserved : Prop where
  conserved : (s.waiting : Multiset (InboundEvent M)) + s.actor.active + s.log.finished =
    s.log.committed + s.log.reassembled
  startedOnce : (s.log.started : Multiset (InboundEvent M)) = s.actor.active + s.log.finished
  reassembledOnce : (s.log.reassembled.map (·.sequence)).Nodup
  reassembled : ∀ e ∈ s.log.reassembled, e.lane ≠ .reassembly ∧
    ∃ c ∈ s.log.finished, c.lane = .reassembly ∧ c.sequence = e.sequence

structure Working : Prop where
  activeLanes : ∀ lane n, s.actor.activeLanes lane = some n ↔
    ∃ e ∈ s.actor.active, e.lane = lane ∧ e.sequence = n
  single : (s.actor.active.map (·.lane)).Nodup

/-- The barrier holds the chunks the actor holds, and none it has handed on. -/
structure Barrier : Prop where
  indexed : s.actor.unfinished.Indexed
  unfinished : ∀ n category, s.actor.unfinished.category.get? n = some category ↔
    s.log.reserved[n]? = some (.reassembly, category) ∧ s.HoldsChunk n
  handed : ∀ e ∈ s.log.reassembled, s.actor.unfinished.category.get? e.sequence = none

/-- What has started is behind all that is to start in its lane, and all it waits for. -/
structure Ordered : Prop where
  inOrder : ∀ lane, ((s.log.started.filter (·.lane = lane)).map (·.sequence)).Pairwise (· < ·)
  ahead : ∀ e ∈ s.log.started, ∀ x ∈ s.actor.queues e.lane, e.sequence < x.sequence
  barrier : ∀ e ∈ s.log.started, e.lane ≠ .reassembly → ∀ n category,
    s.actor.unfinished.category.get? n = some category →
    category = e.lane ∨ category = .reassembly → e.sequence < n
  later : ∀ n lane category, .pending n lane category ∈ s.channel →
    ∀ e ∈ s.log.started, e.sequence < n

structure Sound : Prop extends Tickets s, Answered s, Queued s, Conserved s, Working s, Barrier s,
  Ordered s

lemma forall_mem_update {queues : InboundLane → InboundQueue M} {lane : InboundLane}
    {q : InboundQueue M} {P : InboundLane → InboundQueueEntry M → Prop} (hq : ∀ x ∈ q, P lane x)
    (hold : ∀ l, ∀ x ∈ queues l, P l x) : ∀ l, ∀ x ∈ Function.update queues lane q l, P l x :=
  (Function.forall_update_iff queues fun l q => ∀ x ∈ q, P l x).2 ⟨hq, fun l _ => hold l⟩

variable {s} {s' : Connection M C}

/-! Each part holds of a state that leaves alone what the part is about. -/

lemma Tickets.frame (h : s.Tickets) (hsender : s'.sender = s.sender) (htasks : s'.tasks = s.tasks)
    (hreserved : s'.log.reserved = s.log.reserved)
    (hcommitted : s'.log.committed = s.log.committed) (hchannel : s'.channel ⊆ s.channel) :
    s'.Tickets where
  length := by rw [hreserved, hsender, h.length]
  commands c hc := by
    rw [hreserved]
    exact h.commands c (hchannel hc)
  tasks := by
    rw [hreserved, htasks]
    exact h.tasks
  committed := by
    rw [hreserved, hcommitted]
    exact h.committed
  committedOnce := by
    rw [htasks, hcommitted]
    exact h.committedOnce

lemma Answered.frame (h : s.Answered) (hchannel : s'.channel = s.channel)
    (htasks : s'.tasks = s.tasks) (hvacant : ∀ lane n,
      ⟨n, none⟩ ∈ s'.actor.queues lane ↔ ⟨n, none⟩ ∈ s.actor.queues lane) : s'.Answered where
  answered lane n := by
    rw [answers, hchannel, htasks, Vacant, hchannel, hvacant]
    exact h.answered lane n
  answersOnce := by
    rw [answers, hchannel, htasks]
    exact h.answersOnce

lemma Queued.frame (h : s.Queued) (hchannel : s'.channel = s.channel)
    (hqueues : s'.actor.queues = s.actor.queues) : s'.Queued where
  channel := by
    rw [hchannel]
    exact h.channel
  fresh := by
    rw [hchannel, hqueues]
    exact h.fresh
  ascending := by
    rw [hqueues]
    exact h.ascending
  held := by
    rw [hqueues]
    exact h.held

/-- One queue changes: what is new in it is below all that is still on its way. -/
lemma Queued.update (h : s.Queued) {lane : InboundLane} {q : InboundQueue M}
    (hchannel : s'.channel <:+ s.channel)
    (hqueues : s'.actor.queues = Function.update s.actor.queues lane q) (hascending : q.Ascending)
    (hq : ∀ x ∈ q, x ∈ s.actor.queues lane ∨
      (∀ n l category, .pending n l category ∈ s'.channel → x.sequence < n) ∧
        ∀ e, x.event = some e → e.sequence = x.sequence ∧ e.lane = lane) : s'.Queued where
  channel := h.channel.sublist hchannel.sublist
  fresh n l category hp := by
    rw [hqueues]
    refine forall_mem_update (fun x hx => ?_) (h.fresh n _ category (hchannel.subset hp))
    rcases hq x hx with hx | ⟨hx, -⟩
    · exact h.fresh n _ category (hchannel.subset hp) lane x hx
    · exact hx n l category hp
  ascending := by
    rw [hqueues]
    exact (Function.forall_update_iff _ fun _ q => InboundQueue.Ascending q).2
      ⟨hascending, fun l _ => h.ascending l⟩
  held := by
    rw [hqueues]
    refine forall_mem_update (fun x hx e he => ?_) h.held
    rcases hq x hx with hx | ⟨-, hx⟩
    · exact h.held lane x hx e he
    · exact hx e he

/-- A command enters the channel: a reserved place, above all there is, or an answer. -/
lemma Queued.send (h : s.Queued) {c : InboundCommand M} (hchannel : s'.channel = s.channel ++ [c])
    (hqueues : s'.actor.queues = s.actor.queues)
    (hc : ∀ n lane category, c = .pending n lane category →
      (∀ c' ∈ s.channel, c'.sequence < n) ∧ ∀ l, ∀ x ∈ s.actor.queues l, x.sequence < n) :
    s'.Queued where
  channel := by
    rw [hchannel, List.pairwise_append]
    refine ⟨h.channel, List.pairwise_singleton _ _, fun c' hc' d hd n lane category heq => ?_⟩
    exact (hc n lane category ((List.mem_singleton.1 hd).symm.trans heq)).1 c' hc'
  fresh n lane category hp := by
    rw [hqueues]
    rw [hchannel, List.mem_append, List.mem_singleton] at hp
    rcases hp with hp | hp
    · exact h.fresh n lane category hp
    · exact (hc n lane category hp.symm).2
  ascending := by
    rw [hqueues]
    exact h.ascending
  held := by
    rw [hqueues]
    exact h.held

lemma Conserved.frame (h : s.Conserved) (new : List (InboundEvent M))
    (hwaiting : (s'.waiting : Multiset (InboundEvent M)) = s.waiting + new)
    (hcommitted : s'.log.committed = s.log.committed ++ new)
    (hactive : s'.actor.active = s.actor.active) (hstarted : s'.log.started = s.log.started)
    (hfinished : s'.log.finished = s.log.finished)
    (hreassembled : s'.log.reassembled = s.log.reassembled) : s'.Conserved where
  conserved := by
    rw [hwaiting, hactive, hfinished, hcommitted, hreassembled, ← Multiset.coe_add,
      add_right_comm (s.log.committed : Multiset (InboundEvent M)), ← h.conserved]
    abel
  startedOnce := by
    rw [hstarted, hactive, hfinished]
    exact h.startedOnce
  reassembledOnce := by
    rw [hreassembled]
    exact h.reassembledOnce
  reassembled := by
    rw [hreassembled, hfinished]
    exact h.reassembled

lemma Working.frame (h : s.Working) (hactive : s'.actor.active = s.actor.active)
    (hlanes : s'.actor.activeLanes = s.actor.activeLanes) : s'.Working where
  activeLanes := by
    rw [hlanes, hactive]
    exact h.activeLanes
  single := by
    rw [hactive]
    exact h.single

lemma Barrier.frame (h : s.Barrier) (hunfinished : s'.actor.unfinished = s.actor.unfinished)
    (hreserved : ∀ n, s.HoldsChunk n → s'.log.reserved[n]? = s.log.reserved[n]?)
    (hholds : ∀ n, s'.HoldsChunk n ↔ s.HoldsChunk n)
    (hhanded : ∀ e ∈ s'.log.reassembled, e ∈ s.log.reassembled ∨
      s.actor.unfinished.category.get? e.sequence = none) : s'.Barrier where
  indexed := by
    rw [hunfinished]
    exact h.indexed
  unfinished n category := by
    rw [hunfinished, h.unfinished n category, hholds]
    exact and_congr_left fun hn => by rw [hreserved n hn]
  handed e he := by
    rw [hunfinished]
    exact (hhanded e he).elim (h.handed e) id

/-- A chunk leaves the barrier as the actor lets go of it. -/
lemma Barrier.end_ (h : s.Barrier) {n : ℕ}
    (hunfinished : s'.actor.unfinished = s.actor.unfinished.end_ n)
    (hreserved : s'.log.reserved = s.log.reserved)
    (hholds : ∀ k, s'.HoldsChunk k ↔ s.HoldsChunk k ∧ k ≠ n)
    (hreassembled : s'.log.reassembled = s.log.reassembled) : s'.Barrier where
  indexed := by
    rw [hunfinished]
    exact h.indexed.end_ n
  unfinished k category := by
    rw [hunfinished, hreserved, UnfinishedReassembly.category_end_, hholds]
    by_cases hk : k = n
    · simp [hk]
    · simp [hk, h.unfinished k category]
  handed e he := by
    rw [hreassembled] at he
    rw [hunfinished, UnfinishedReassembly.category_end_, h.handed e he, ite_self]

lemma Barrier.begin_ (h : s.Barrier) {n : ℕ} {category : InboundLane}
    (hunfinished : s'.actor.unfinished = s.actor.unfinished.begin_ n category)
    (hreserved : s'.log.reserved = s.log.reserved)
    (hn : s.log.reserved[n]? = some (.reassembly, category)) (hnew : ¬ s.HoldsChunk n)
    (hholds : ∀ k, s'.HoldsChunk k ↔ s.HoldsChunk k ∨ k = n)
    (hreassembled : s'.log.reassembled = s.log.reassembled)
    (hhanded : ∀ e ∈ s.log.reassembled, e.sequence ≠ n) : s'.Barrier where
  indexed := by
    rw [hunfinished]
    refine h.indexed.begin_ ?_ category
    by_contra hsome
    obtain ⟨c, hc⟩ := Option.ne_none_iff_exists'.1 hsome
    exact hnew ((h.unfinished n c).1 hc).2
  unfinished k c := by
    rw [hunfinished, hreserved, UnfinishedReassembly.category_begin_, hholds]
    by_cases hk : k = n
    · simp [hk, hn]
    · simp [hk, h.unfinished k c]
  handed e he := by
    rw [hreassembled] at he
    rw [hunfinished, UnfinishedReassembly.category_begin_, if_neg (hhanded e he), h.handed e he]

/-- Nothing starts, and what is new is later than all that has. -/
lemma Ordered.frame (h : s.Ordered) (hstarted : s'.log.started = s.log.started)
    (hqueues : ∀ l, ∀ x ∈ s'.actor.queues l, (∃ y ∈ s.actor.queues l, y.sequence = x.sequence) ∨
      ∀ e ∈ s.log.started, e.lane = l → e.sequence < x.sequence)
    (hunfinished : ∀ n category, s'.actor.unfinished.category.get? n = some category →
      s.actor.unfinished.category.get? n = some category ∨ ∀ e ∈ s.log.started, e.sequence < n)
    (hchannel : ∀ n lane category, .pending n lane category ∈ s'.channel →
      .pending n lane category ∈ s.channel ∨ ∀ e ∈ s.log.started, e.sequence < n) :
    s'.Ordered where
  inOrder := by
    rw [hstarted]
    exact h.inOrder
  ahead e he x hx := by
    rw [hstarted] at he
    rcases hqueues _ x hx with ⟨y, hy, heq⟩ | hx
    · rw [← heq]
      exact h.ahead e he y hy
    · exact hx e he rfl
  barrier e he hlane n category hn hcategory := by
    rw [hstarted] at he
    rcases hunfinished n category hn with hn | hn
    · exact h.barrier e he hlane n category hn hcategory
    · exact hn e he
  later n lane category hp e he := by
    rw [hstarted] at he
    rcases hchannel n lane category hp with hp | hp
    · exact h.later n lane category hp e he
    · exact hp e he

namespace Sound

lemma mem_committed_or (h : s.Sound) {e : InboundEvent M}
    (he : e ∈ s.waiting ∨ e ∈ s.actor.active ∨ e ∈ s.log.finished) :
    e ∈ s.log.committed ∨ e ∈ s.log.reassembled := by
  have hmem : e ∈ (s.waiting : Multiset (InboundEvent M)) + s.actor.active + s.log.finished := by
    simpa [or_assoc] using he
  rw [h.conserved] at hmem
  simpa using hmem

lemma mem_waiting {lane : InboundLane} {e : InboundEvent M}
    (he : e ∈ (s.actor.queues lane).events) : e ∈ s.waiting :=
  List.mem_append_right _ (List.mem_flatMap.2 ⟨lane, mem_all lane, he⟩)

/-- A vacant place is the place its ticket reserved. -/
lemma reserved_of_vacant (h : s.Sound) {lane : InboundLane} {n : ℕ} (hv : s.Vacant lane n) :
    ∃ category, s.log.reserved[n]? = some (lane, category) := by
  rcases List.mem_append.1 ((h.answered lane n).2 hv) with hmem | hmem
  · obtain ⟨c, hc, hans⟩ := List.mem_filterMap.1 hmem
    have ht := h.commands c hc
    cases c with
    | pending => cases hans
    | ready e =>
      obtain ⟨rfl, rfl⟩ := Prod.mk.inj (Option.some.inj hans)
      exact ⟨_, ht⟩
    | cancel k l =>
      obtain ⟨rfl, rfl⟩ := Prod.mk.inj (Option.some.inj hans)
      exact ht
  · obtain ⟨t, ht, hkey⟩ := List.mem_map.1 hmem
    obtain ⟨rfl, rfl⟩ := Prod.mk.inj hkey
    exact ⟨_, h.tasks t ht⟩

/-- A chunk is never in place of a message it completed. -/
lemma mem_committed_of_reassembly (h : s.Sound) {e : InboundEvent M}
    (he : e ∈ s.waiting ∨ e ∈ s.actor.active ∨ e ∈ s.log.finished)
    (hlane : e.lane = .reassembly) : e ∈ s.log.committed :=
  (h.mem_committed_or he).resolve_right fun hr => (h.reassembled e hr).1 hlane

/-- No message of another lane sits at the sequence of an unfinished chunk. -/
lemma ne_of_unfinished (h : s.Sound) {n : ℕ} {category : InboundLane}
    (hn : s.actor.unfinished.category.get? n = some category) {e : InboundEvent M}
    (he : e ∈ s.waiting ∨ e ∈ s.actor.active ∨ e ∈ s.log.finished)
    (hlane : e.lane ≠ .reassembly) : e.sequence ≠ n := by
  rintro rfl
  rcases h.mem_committed_or he with hc | hr
  · have h1 := h.committed e hc
    rw [((h.unfinished _ _).1 hn).1, Option.some.injEq, Prod.mk.injEq] at h1
    exact hlane h1.1.symm
  · rw [h.handed e hr] at hn
    cases hn

/-! Every sequence in use was reserved. -/

lemma lt_of_reserved (h : s.Sound) {n : ℕ} {x : InboundLane × InboundLane}
    (hn : s.log.reserved[n]? = some x) : n < s.sender.nextSequence := by
  rw [← h.length]
  exact (List.getElem?_eq_some_iff.1 hn).1

lemma lt_of_command (h : s.Sound) {c : InboundCommand M} (hc : c ∈ s.channel) :
    c.sequence < s.sender.nextSequence := by
  have ht := h.commands c hc
  cases c with
  | pending n lane category => exact h.lt_of_reserved ht
  | ready e => exact h.lt_of_reserved ht
  | cancel n lane => exact h.lt_of_reserved ht.choose_spec

lemma lt_of_event (h : s.Sound) {e : InboundEvent M}
    (he : e ∈ s.waiting ∨ e ∈ s.actor.active ∨ e ∈ s.log.finished) :
    e.sequence < s.sender.nextSequence := by
  rcases h.mem_committed_or he with hc | hr
  · exact h.lt_of_reserved (h.committed e hc)
  · obtain ⟨-, c, hc, hlane, hseq⟩ := h.reassembled e hr
    rw [← hseq]
    exact h.lt_of_reserved (h.committed c
      (h.mem_committed_of_reassembly (Or.inr (Or.inr hc)) hlane))

lemma mem_started (h : s.Sound) {e : InboundEvent M} :
    e ∈ s.log.started ↔ e ∈ s.actor.active ∨ e ∈ s.log.finished := by
  have hmem : e ∈ (s.log.started : Multiset (InboundEvent M)) ↔
      e ∈ (s.actor.active : Multiset (InboundEvent M)) + s.log.finished := by rw [h.startedOnce]
  simpa using hmem

lemma lt_of_started (h : s.Sound) {e : InboundEvent M} (he : e ∈ s.log.started) :
    e.sequence < s.sender.nextSequence :=
  h.lt_of_event (Or.inr (h.mem_started.1 he))

lemma lt_of_queued (h : s.Sound) {lane : InboundLane} {x : InboundQueueEntry M}
    (hx : x ∈ s.actor.queues lane) : x.sequence < s.sender.nextSequence := by
  rcases hev : x.event with _ | e
  · obtain ⟨category, hr⟩ := h.reserved_of_vacant (Or.inr (by
      rw [← hev]
      exact hx))
    exact h.lt_of_reserved hr
  · rw [← (h.held lane x hx e hev).1]
    exact h.lt_of_event (Or.inl (mem_waiting (InboundQueue.mem_events.2 ⟨x, hx, hev⟩)))

lemma lt_of_holdsChunk (h : s.Sound) {n : ℕ} (hn : s.HoldsChunk n) : n < s.log.reserved.length := by
  rw [h.length]
  rcases hn with ⟨x, hx, rfl⟩ | ⟨e, he, -, rfl⟩
  · exact h.lt_of_queued hx
  · exact h.lt_of_event (Or.inr (Or.inl he))

end Sound

/-! ### Taking a ticket -/

lemma getElem?_snoc {α : Type*} {l : List α} {n : ℕ} {x : α} (h : l[n]? = some x) (y : α) :
    (l ++ [y])[n]? = some x := by
  rw [List.getElem?_append_left (List.getElem?_eq_some_iff.1 h).1, h]

/-- The connection once the next sequence is reserved for the message. -/
def ticketed (s : Connection M C) (message : Message M) (carrier : Option ChannelLane) :
    Connection M C :=
  { s with
    sender := ⟨s.sender.nextSequence + 1⟩
    tasks := s.tasks ++ [⟨⟨s.sender.nextSequence, message.lane⟩, message, carrier⟩]
    channel := s.channel ++ [.pending s.sender.nextSequence message.lane
      (message.lane.category carrier)]
    log := { s.log with
      reserved := s.log.reserved ++ [(message.lane, message.lane.category carrier)] } }

lemma reserveTicket_cases (s : Connection M C) (message : Message M)
    (carrier : Option ChannelLane) :
    s.reserveTicket message carrier = s ∨
      s.reserveTicket message carrier = s.ticketed message carrier := by
  unfold reserveTicket InboundSender.reserve checkedAdd
  by_cases hfull : s.sender.nextSequence + 1 ≤ u64Max
  · right
    simp only [if_pos hfull]
    rfl
  · left
    simp only [if_neg hfull]

section Ticket

variable {message : Message M} {carrier : Option ChannelLane}

lemma Tickets.ticketed (h : s.Tickets) : (s.ticketed message carrier).Tickets := by
  have hlast : (s.ticketed message carrier).log.reserved[s.sender.nextSequence]? =
      some (message.lane, message.lane.category carrier) := by
    rw [Connection.ticketed, ← h.length, List.getElem?_concat_length]
  have hlt : ∀ {n x}, s.log.reserved[n]? = some x → n ≠ s.sender.nextSequence := by
    intro n x hn
    rw [← h.length]
    exact (List.getElem?_eq_some_iff.1 hn).1.ne
  constructor
  case length => simp [Connection.ticketed, h.length]
  case commands =>
    intro c hc
    rcases List.mem_append.1 hc with hc | hc
    · have ht := h.commands c hc
      cases c with
      | pending n lane category => exact getElem?_snoc ht _
      | ready e => exact getElem?_snoc ht _
      | cancel n lane => exact ht.imp fun category hcat => getElem?_snoc hcat _
    · rw [List.mem_singleton.1 hc]
      exact hlast
  case tasks =>
    intro t ht
    rcases List.mem_append.1 ht with ht | ht
    · exact getElem?_snoc (h.tasks t ht) _
    · rw [List.mem_singleton.1 ht]
      exact hlast
  case committed => exact fun e he => getElem?_snoc (h.committed e he) _
  case committedOnce =>
    simp only [Connection.ticketed, List.map_append, List.map_cons, List.map_nil,
      List.append_assoc, List.singleton_append]
    refine List.nodup_middle.2 (List.nodup_cons.2 ⟨?_, h.committedOnce⟩)
    simp only [List.mem_append, List.mem_map, not_or, not_exists, not_and]
    exact ⟨fun t ht => hlt (h.tasks t ht), fun e he => hlt (h.committed e he)⟩

lemma Sound.answered_ticketed (h : s.Sound) : (s.ticketed message carrier).Answered := by
  constructor
  case answered =>
    intro lane n
    have hold := h.answered lane n
    simp only [answers, List.mem_append, Vacant] at hold ⊢
    simp only [ticketed, List.filterMap_append, List.map_append, List.mem_append, List.map_cons,
      List.map_nil, List.mem_singleton, List.filterMap_cons, List.filterMap_nil,
      InboundCommand.answer?, List.not_mem_nil, or_false, EnqueueTask.key, exists_or,
      InboundCommand.pending.injEq]
    rw [← or_assoc, hold, or_right_comm]
    refine or_congr_left (or_congr_right ?_)
    simp [Prod.ext_iff, and_comm]
  case answersOnce =>
    have hsplit : (s.ticketed message carrier).answers =
        s.answers ++ [(message.lane, s.sender.nextSequence)] := by
      simp [ticketed, answers, InboundCommand.answer?, EnqueueTask.key]
    rw [hsplit, List.nodup_append]
    refine ⟨h.answersOnce, List.nodup_singleton _, ?_⟩
    rintro ⟨lane, n⟩ hx y hy rfl
    obtain ⟨category, hr⟩ := h.reserved_of_vacant ((h.answered lane n).1 hx)
    have := h.lt_of_reserved hr
    simp only [List.mem_singleton, Prod.mk.injEq] at hy
    omega

lemma Sound.reserveTicket (h : s.Sound) (message : Message M) (carrier : Option ChannelLane) :
    (s.reserveTicket message carrier).Sound := by
  rcases s.reserveTicket_cases message carrier with hsame | hticketed
  · rwa [hsame]
  rw [hticketed]
  exact {
    toTickets := h.toTickets.ticketed
    toAnswered := h.answered_ticketed
    toQueued := h.toQueued.send rfl rfl fun n lane category heq => by
      obtain ⟨rfl, -, -⟩ := InboundCommand.pending.inj heq
      exact ⟨fun c hc => h.lt_of_command hc, fun l x hx => h.lt_of_queued hx⟩
    toConserved := h.toConserved.frame []
      (by simp [ticketed, waiting, InboundCommand.event?, List.filterMap_cons])
      (List.append_nil _).symm rfl rfl rfl rfl
    toWorking := h.toWorking.frame rfl rfl
    toBarrier := h.toBarrier.frame rfl
      (fun n hn => List.getElem?_append_left (h.lt_of_holdsChunk hn)) (fun _ => Iff.rfl)
      fun _ => Or.inl
    toOrdered := h.toOrdered.frame rfl (fun _ x hx => Or.inl ⟨x, hx, rfl⟩) (fun _ _ => Or.inl)
      fun n lane category hp => by
        rcases List.mem_append.1 hp with hp | hp
        · exact Or.inl hp
        · obtain ⟨rfl, -, -⟩ := InboundCommand.pending.inj (List.mem_singleton.1 hp)
          exact Or.inr fun e he => h.lt_of_started he }

end Ticket

/-! ### Committing and dropping a ticket -/

lemma mem_eraseIdx_or {α : Type*} {l : List α} {i : ℕ} {x y : α} (hx : l[i]? = some x) :
    y ∈ l ↔ y = x ∨ y ∈ l.eraseIdx i := by
  obtain ⟨hi, rfl⟩ := List.getElem?_eq_some_iff.1 hx
  rw [← (List.getElem_cons_eraseIdx_perm hi).mem_iff, List.mem_cons]

lemma map_eraseIdx_perm {α β : Type*} {l : List α} {i : ℕ} {x : α} (hx : l[i]? = some x)
    (f : α → β) : f x :: (l.eraseIdx i).map f ~ l.map f := by
  obtain ⟨hi, rfl⟩ := List.getElem?_eq_some_iff.1 hx
  exact (List.getElem_cons_eraseIdx_perm hi).map f

/-- The connection once the task at `index` has answered its ticket. -/
def answering (s : Connection M C) (index : ℕ) (answer : InboundCommand M)
    (new : List (InboundEvent M)) : Connection M C :=
  { s with
    tasks := s.tasks.eraseIdx index
    channel := s.channel ++ [answer]
    log := { s.log with committed := s.log.committed ++ new } }

section Answer

variable {index : ℕ} {t : EnqueueTask M} {answer : InboundCommand M} {new : List (InboundEvent M)}

lemma Tickets.answering (h : s.Tickets) (ht : s.tasks[index]? = some t)
    (hanswer : answer = .ready t.event ∧ new = [t.event] ∨
      answer = .cancel t.ticket.sequence t.ticket.lane ∧ new = []) :
    (s.answering index answer new).Tickets := by
  have hreserved := h.tasks t (List.mem_of_getElem? ht)
  constructor
  case length => exact h.length
  case commands =>
    intro c hc
    rcases List.mem_append.1 hc with hc | hc
    · exact h.commands c hc
    · rw [List.mem_singleton.1 hc]
      rcases hanswer with ⟨rfl, -⟩ | ⟨rfl, -⟩
      · exact hreserved
      · exact ⟨_, hreserved⟩
  case tasks => exact fun t' ht' => h.tasks t' (List.mem_of_mem_eraseIdx ht')
  case committed =>
    intro e he
    rcases List.mem_append.1 he with he | he
    · exact h.committed e he
    · rcases hanswer with ⟨-, rfl⟩ | ⟨-, rfl⟩
      · rw [List.mem_singleton.1 he]
        exact hreserved
      · cases he
  case committedOnce =>
    have hold := ((map_eraseIdx_perm ht (·.ticket.sequence)).append_right
      (s.log.committed.map (·.sequence))).nodup_iff.2 h.committedOnce
    simp only [Connection.answering, List.map_append]
    rcases hanswer with ⟨-, rfl⟩ | ⟨-, rfl⟩
    · rw [← List.append_assoc]
      exact (List.perm_append_singleton _ _).nodup_iff.2 hold
    · simpa using (List.nodup_cons.1 hold).2

lemma Answered.answering (h : s.Answered) (ht : s.tasks[index]? = some t)
    (hanswer : answer.answer? = some t.key) : (s.answering index answer new).Answered := by
  have hperm : (s.answering index answer new).answers ~ s.answers := by
    simp only [answers, Connection.answering, List.filterMap_append, List.filterMap_cons, hanswer,
      List.filterMap_nil, List.append_assoc, List.singleton_append]
    exact (map_eraseIdx_perm ht EnqueueTask.key).append_left _
  have hpending : ∀ n lane category, .pending n lane category ∈ s.channel ++ [answer] ↔
      .pending n lane category ∈ s.channel := by
    intro n lane category
    rw [List.mem_append, List.mem_singleton, or_iff_left]
    rintro rfl
    cases hanswer
  constructor
  case answered =>
    intro lane n
    rw [hperm.mem_iff, h.answered lane n]
    simp only [Vacant, Connection.answering, hpending]
  case answersOnce => exact hperm.nodup_iff.2 h.answersOnce

lemma Sound.answering (h : s.Sound) (ht : s.tasks[index]? = some t)
    (hanswer : answer = .ready t.event ∧ new = [t.event] ∨
      answer = .cancel t.ticket.sequence t.ticket.lane ∧ new = []) :
    (s.answering index answer new).Sound := by
  have hkey : answer.answer? = some t.key := by
    rcases hanswer with ⟨rfl, -⟩ | ⟨rfl, -⟩ <;> rfl
  have hevents : answer.event?.toList = new := by
    rcases hanswer with ⟨rfl, rfl⟩ | ⟨rfl, rfl⟩ <;> rfl
  have hnotPending : ∀ n lane category, answer ≠ .pending n lane category := by
    rintro n lane category rfl
    cases hkey
  exact {
    toTickets := h.toTickets.answering ht hanswer
    toAnswered := h.toAnswered.answering ht hkey
    toQueued := h.toQueued.send rfl rfl fun n lane category heq =>
      absurd heq (hnotPending n lane category)
    toConserved := h.toConserved.frame new (by
      have hfilter : [answer].filterMap InboundCommand.event? = new := by
        rw [← hevents]
        cases answer <;> rfl
      simp only [waiting, Connection.answering, List.filterMap_append, hfilter, ← Multiset.coe_add]
      abel) rfl rfl rfl rfl rfl
    toWorking := h.toWorking.frame rfl rfl
    toBarrier := h.toBarrier.frame rfl (fun _ _ => rfl) (fun _ => Iff.rfl) fun _ => Or.inl
    toOrdered := h.toOrdered.frame rfl (fun _ x hx => Or.inl ⟨x, hx, rfl⟩) (fun _ _ => Or.inl)
      fun n lane category hp => Or.inl ((List.mem_append.1 hp).resolve_right fun hp =>
        hnotPending n lane category (List.mem_singleton.1 hp).symm) }

lemma Sound.commit (h : s.Sound) (index : ℕ) : (s.commit index).Sound := by
  unfold Connection.commit
  cases ht : s.tasks[index]? with
  | none => exact h
  | some t => exact h.answering ht (Or.inl ⟨rfl, rfl⟩)

lemma Sound.dropTicket (h : s.Sound) (index : ℕ) : (s.dropTicket index).Sound := by
  unfold Connection.dropTicket
  cases ht : s.tasks[index]? with
  | none => exact h
  | some t =>
    have hanswering := h.answering ht (Or.inr ⟨rfl, rfl⟩)
    rwa [Connection.answering, List.append_nil] at hanswering

end Answer

/-! ### Taking a command -/

/-- The connection once the actor has taken a command for the lane. -/
def taking (s : Connection M C) (channel : List (InboundCommand M)) (lane : InboundLane)
    (queue : InboundQueue M) (unfinished : UnfinishedReassembly) : Connection M C :=
  { s with
    channel := channel
    actor := { s.actor with
      queues := Function.update s.actor.queues lane queue
      unfinished := unfinished } }

section Receive

@[simp] lemma queues_taking (channel : List (InboundCommand M)) (lane : InboundLane)
    (queue : InboundQueue M) (unfinished : UnfinishedReassembly) :
    (s.taking channel lane queue unfinished).actor.queues =
      Function.update s.actor.queues lane queue := rfl

@[simp] lemma unfinished_taking (channel : List (InboundCommand M)) (lane : InboundLane)
    (queue : InboundQueue M) (unfinished : UnfinishedReassembly) :
    (s.taking channel lane queue unfinished).actor.unfinished = unfinished := rfl

variable {c : InboundCommand M} {cs : List (InboundCommand M)} {e : InboundEvent M} {n : ℕ}
  {lane category : InboundLane} {q l₁ l₂ : InboundQueue M} {u : UnfinishedReassembly}

lemma suffix_channel (hc : s.channel = c :: cs) : cs <:+ s.channel := by
  rw [hc]
  exact List.suffix_cons _ _

lemma waiting_taking (hc : s.channel = c :: cs)
    (hevents : (q.events : Multiset (InboundEvent M)) =
      (s.actor.queues lane).events + (c.event?.toList : Multiset (InboundEvent M))) :
    ((s.taking cs lane q u).waiting : Multiset (InboundEvent M)) = s.waiting := by
  have hsplit : s.channel.filterMap InboundCommand.event? =
      c.event?.toList ++ cs.filterMap InboundCommand.event? := by
    rw [hc, List.filterMap_cons]
    cases c.event? <;> rfl
  simp only [waiting, taking, hsplit, ← Multiset.coe_add,
    PerLane.flatMap_update_add nodup_all (mem_all _) hevents]
  abel

lemma holdsChunk_taking (hlane : lane ≠ .reassembly) {k : ℕ} :
    (s.taking cs lane q u).HoldsChunk k ↔ s.HoldsChunk k := by
  rw [HoldsChunk, queues_taking, Function.update_of_ne hlane.symm]
  rfl

lemma Sound.taking (h : s.Sound) (hc : s.channel = c :: cs)
    (hanswered : (s.taking cs lane q u).Answered) (hqueued : (s.taking cs lane q u).Queued)
    (hevents : (q.events : Multiset (InboundEvent M)) =
      (s.actor.queues lane).events + (c.event?.toList : Multiset (InboundEvent M)))
    (hbarrier : (s.taking cs lane q u).Barrier) (hordered : (s.taking cs lane q u).Ordered) :
    (s.taking cs lane q u).Sound where
  toTickets := h.toTickets.frame rfl rfl rfl rfl (suffix_channel hc).subset
  toAnswered := hanswered
  toQueued := hqueued
  toConserved := h.toConserved.frame []
    ((waiting_taking hc hevents).trans (add_zero _).symm) (List.append_nil _).symm rfl rfl rfl rfl
  toWorking := h.toWorking.frame rfl rfl
  toBarrier := hbarrier
  toOrdered := hordered

/-- An answer finds the place its ticket reserved, still vacant. -/
lemma Sound.exists_vacant (h : s.Sound) (hc : s.channel = c :: cs)
    (ha : c.answer? = some (lane, n)) : ∃ l₁ l₂, s.actor.queues lane = l₁ ++ ⟨n, none⟩ :: l₂ := by
  have hmem : (lane, n) ∈ s.answers :=
    List.mem_append_left _ (List.mem_filterMap.2 ⟨c, by rw [hc]; exact List.mem_cons_self, ha⟩)
  have hseq : c.sequence = n := by
    cases c <;> cases ha <;> rfl
  rcases (h.answered lane n).1 hmem with ⟨category, hp⟩ | hq
  · have hchannel := h.channel
    rw [hc] at hp hchannel
    rcases List.mem_cons.1 hp with rfl | hp
    · cases ha
    · have := (List.pairwise_cons.1 hchannel).1 _ hp n lane category rfl
      omega
  · exact List.mem_iff_append.1 hq

lemma Sound.answered_taking (h : s.Sound) (hc : s.channel = c :: cs)
    (ha : c.answer? = some (lane, n)) (hqueue : ∀ k, ⟨k, none⟩ ∈ q ↔
      ⟨k, none⟩ ∈ s.actor.queues lane ∧ k ≠ n) : (s.taking cs lane q u).Answered := by
  have hsplit : s.answers = (lane, n) :: (s.taking cs lane q u).answers := by
    rw [answers, hc, List.filterMap_cons, ha]
    rfl
  have hnodup := h.answersOnce
  rw [hsplit, List.nodup_cons] at hnodup
  refine ⟨fun l k => ?_, hnodup.2⟩
  have hold := h.answered l k
  have hchannel := h.channel
  simp only [hsplit, Vacant, hc, List.mem_cons] at hold
  rw [hc] at hchannel
  have hnotPending : ∀ category, InboundCommand.pending k l category ≠ c := by
    rintro category rfl
    cases ha
  have hseq : c.sequence = n := by
    cases c <;> cases ha <;> rfl
  simp only [hnotPending, false_or] at hold
  by_cases hkey : (l, k) = (lane, n)
  · obtain ⟨rfl, rfl⟩ := Prod.mk.inj hkey
    refine iff_of_false hnodup.1 ?_
    rintro (⟨category, hp⟩ | hq)
    · have := (List.pairwise_cons.1 hchannel).1 _ hp k l category rfl
      omega
    · rw [queues_taking, Function.update_self, hqueue] at hq
      exact hq.2 rfl
  · simp only [hkey, false_or] at hold
    rw [hold, Vacant, queues_taking]
    refine or_congr_right ?_
    by_cases hl : l = lane
    · subst hl
      rw [Function.update_self, hqueue]
      exact ⟨fun hq => ⟨hq, fun hk => hkey (by rw [hk])⟩, And.left⟩
    · rw [Function.update_of_ne hl]

/-- A frame takes the place its ticket reserved. -/
lemma Sound.receive_ready (h : s.Sound) (hc : s.channel = .ready e :: cs) :
    Sound { s with channel := cs, actor := s.actor.handleCommand (.ready e) } := by
  obtain ⟨l₁, l₂, hq⟩ := h.exists_vacant hc (rfl : _ = some (e.lane, e.sequence))
  have hasc := h.ascending e.lane
  rw [hq] at hasc
  have hpush : (s.actor.queues e.lane).pushReady e = l₁ ++ ⟨e.sequence, some e⟩ :: l₂ := by
    rw [hq]
    exact InboundQueue.pushReady_filled hasc rfl
  change (s.taking cs e.lane ((s.actor.queues e.lane).pushReady e) s.actor.unfinished).Sound
  rw [hpush]
  -- the queue holds the same sequences as before
  have hseqs : ∀ k, (∃ x ∈ l₁ ++ ⟨e.sequence, some e⟩ :: l₂, x.sequence = k) ↔
      ∃ x ∈ s.actor.queues e.lane, x.sequence = k := by
    intro k
    rw [hq, InboundQueue.exists_sequence_cons, InboundQueue.exists_sequence_cons]
  refine h.taking hc (h.answered_taking hc rfl fun k => ?_) ?_ ?_ ?_ ?_
  · rw [hq, ← InboundQueue.mem_append_iff hasc ⟨k, none⟩]
    simp
  · refine h.toQueued.update (suffix_channel hc) rfl ?_ fun x hx => ?_
    · obtain ⟨hrest, hlow, hhigh⟩ := InboundQueue.ascending_append_cons.1 hasc
      exact InboundQueue.ascending_append_cons.2 ⟨hrest, hlow, hhigh⟩
    · rw [List.mem_append, List.mem_cons] at hx
      rw [hq, List.mem_append, List.mem_cons]
      rcases hx with hx | rfl | hx
      · exact Or.inl (Or.inl hx)
      · refine Or.inr ⟨fun k l category hp => ?_, fun e' he' => ?_⟩
        · refine h.fresh k l category ((suffix_channel hc).subset hp) e.lane ⟨e.sequence, none⟩ ?_
          rw [hq]
          exact List.mem_append_right _ List.mem_cons_self
        · obtain rfl := Option.some.inj he'
          exact ⟨rfl, rfl⟩
      · exact Or.inl (Or.inr (Or.inr hx))
  · rw [hq]
    simp only [InboundQueue.events_append, InboundQueue.events_cons_some,
      InboundQueue.events_cons_none, InboundCommand.event?, Option.toList_some, ← Multiset.coe_add,
      ← Multiset.cons_coe, Multiset.coe_nil, ← Multiset.singleton_add]
    abel
  · refine h.toBarrier.frame rfl (fun _ _ => rfl) (fun k => ?_) fun _ => Or.inl
    by_cases hlane : e.lane = .reassembly
    · rw [HoldsChunk, queues_taking, ← hlane, Function.update_self, hseqs, hlane]
      rfl
    · exact holdsChunk_taking hlane
  · refine h.toOrdered.frame rfl ?_ (fun _ _ => Or.inl) fun k l category hp =>
      Or.inl ((suffix_channel hc).subset hp)
    exact forall_mem_update (fun x hx => Or.inl ((hseqs _).1 ⟨x, hx, rfl⟩))
      fun l x hx => Or.inl ⟨x, hx, rfl⟩

/-- A cancelled place leaves its lane, and the barrier. -/
lemma Sound.receive_cancel (h : s.Sound) (hc : s.channel = .cancel n lane :: cs) :
    Sound { s with channel := cs, actor := s.actor.handleCommand (.cancel n lane) } := by
  obtain ⟨l₁, l₂, hq⟩ := h.exists_vacant hc (rfl : _ = some (lane, n))
  have hasc := h.ascending lane
  rw [hq] at hasc
  have hcancel : (s.actor.queues lane).cancel n = l₁ ++ l₂ := by
    rw [hq]
    exact InboundQueue.cancel_append_cons hasc
  rw [InboundActor.handleCommand_cancel, hcancel]
  change (s.taking cs lane (l₁ ++ l₂) _).Sound
  have hmem : ∀ x, x ∈ l₁ ++ l₂ ↔ x ∈ s.actor.queues lane ∧ x.sequence ≠ n := by
    rw [hq]
    exact InboundQueue.mem_append_iff hasc
  refine h.taking hc (h.answered_taking hc rfl fun k => hmem ⟨k, none⟩) ?_ ?_ ?_ ?_
  · exact h.toQueued.update (suffix_channel hc) rfl
      (InboundQueue.ascending_append_cons.1 hasc).1 fun x hx => Or.inl ((hmem x).1 hx).1
  · rw [hq]
    simp [InboundCommand.event?]
  · by_cases hlane : lane = .reassembly
    · subst hlane
      refine h.toBarrier.end_ (by rw [unfinished_taking, if_pos rfl]) rfl (fun k => ?_) rfl
      -- nothing active has the sequence, which is still vacant
      have hactive : ∀ e ∈ s.actor.active, e.lane = .reassembly → e.sequence < n := by
        intro e he helane
        refine h.ahead e (h.mem_started.2 (Or.inl he)) ⟨n, none⟩ ?_
        rw [helane, hq]
        exact List.mem_append_right _ List.mem_cons_self
      rw [HoldsChunk, queues_taking, Function.update_self]
      constructor
      · rintro (⟨x, hx, rfl⟩ | ⟨e, he, helane, rfl⟩)
        · exact ⟨Or.inl ⟨x, ((hmem x).1 hx).1, rfl⟩, ((hmem x).1 hx).2⟩
        · exact ⟨Or.inr ⟨e, he, helane, rfl⟩, (hactive e he helane).ne⟩
      · rintro ⟨⟨x, hx, rfl⟩ | he, hne⟩
        · exact Or.inl ⟨x, (hmem x).2 ⟨hx, hne⟩, rfl⟩
        · exact Or.inr he
    · exact h.toBarrier.frame (by rw [unfinished_taking, if_neg hlane]) (fun _ _ => rfl)
        (fun _ => holdsChunk_taking hlane) fun _ => Or.inl
  · refine h.toOrdered.frame rfl ?_ (fun k category hk => Or.inl ?_)
      fun k l category hp => Or.inl ((suffix_channel hc).subset hp)
    · exact forall_mem_update (fun x hx => Or.inl ⟨x, ((hmem x).1 hx).1, rfl⟩)
        fun l x hx => Or.inl ⟨x, hx, rfl⟩
    · rw [unfinished_taking] at hk
      split at hk
      · exact UnfinishedReassembly.category_of_end_ hk
      · exact hk

/-- A reserved place is the last of its lane, and a chunk's enters the barrier. -/
lemma Sound.receive_pending (h : s.Sound) (hc : s.channel = .pending n lane category :: cs) :
    Sound { s with channel := cs, actor := s.actor.handleCommand (.pending n lane category) } := by
  have hhead : .pending n lane category ∈ s.channel := by
    rw [hc]
    exact List.mem_cons_self
  have hbelow := h.fresh n lane category hhead
  have hlater := h.later n lane category hhead
  rw [InboundActor.handleCommand_pending]
  change (s.taking cs lane (s.actor.queues lane ++ [⟨n, none⟩]) _).Sound
  refine h.taking hc ⟨fun l k => ?_, ?_⟩ ?_ ?_ ?_ ?_
  · have hold := h.answered l k
    rw [answers, hc, List.filterMap_cons] at hold
    rw [answers, Vacant]
    simp only [InboundCommand.answer?] at hold
    simp only [Connection.taking, hold, Vacant, hc, List.mem_cons, InboundCommand.pending.injEq,
      exists_or]
    by_cases hl : l = lane
    · subst hl
      rw [Function.update_self, List.mem_append, List.mem_singleton]
      simp only [InboundQueueEntry.mk.injEq, and_true, true_and, exists_and_left, exists_eq,
        or_assoc]
      tauto
    · rw [Function.update_of_ne hl]
      simp [hl]
  · have hnodup := h.answersOnce
    rw [answers, hc, List.filterMap_cons] at hnodup
    exact hnodup
  · refine h.toQueued.update (suffix_channel hc) rfl ?_ fun x hx => ?_
    · refine List.pairwise_append.2 ⟨h.ascending lane, List.pairwise_singleton _ _, ?_⟩
      rintro x hx y hy
      rw [List.mem_singleton.1 hy]
      exact hbelow lane x hx
    · rcases List.mem_append.1 hx with hx | hx
      · exact Or.inl hx
      · rw [List.mem_singleton.1 hx]
        refine Or.inr ⟨fun k l c hp => ?_, fun e he => nomatch he⟩
        have hchannel := h.channel
        rw [hc, List.pairwise_cons] at hchannel
        exact hchannel.1 _ hp k l c rfl
  · simp [InboundCommand.event?]
  · by_cases hlane : lane = .reassembly
    · subst hlane
      refine h.toBarrier.begin_ (by rw [unfinished_taking, if_pos rfl]) rfl (h.commands _ hhead) ?_
        (fun k => ?_) rfl ?_
      · rintro (⟨x, hx, rfl⟩ | ⟨e, he, -, rfl⟩)
        · exact (hbelow _ x hx).false
        · exact (hlater e (h.mem_started.2 (Or.inl he))).false
      · simp only [HoldsChunk, queues_taking, Function.update_self, List.mem_append,
          List.mem_singleton, or_and_right, exists_or, exists_eq_left]
        rw [or_right_comm, eq_comm (a := n)]
        rfl
      · intro e he hseq
        obtain ⟨-, c, hfinished, -, hcseq⟩ := h.reassembled e he
        have := hlater c (h.mem_started.2 (Or.inr hfinished))
        omega
    · exact h.toBarrier.frame (by rw [unfinished_taking, if_neg hlane]) (fun _ _ => rfl)
        (fun _ => holdsChunk_taking hlane) fun _ => Or.inl
  · refine h.toOrdered.frame rfl ?_ (fun k c hk => ?_) fun k l c hp =>
      Or.inl ((suffix_channel hc).subset hp)
    · refine forall_mem_update (fun x hx => ?_) fun l x hx => Or.inl ⟨x, hx, rfl⟩
      rcases List.mem_append.1 hx with hx | hx
      · exact Or.inl ⟨x, hx, rfl⟩
      · rw [List.mem_singleton.1 hx]
        exact Or.inr fun e he _ => hlater e he
    · rw [unfinished_taking] at hk
      split at hk
      · rw [UnfinishedReassembly.category_begin_] at hk
        split at hk
        · subst k
          exact Or.inr hlater
        · exact Or.inl hk
      · exact Or.inl hk

lemma Sound.receive (h : s.Sound) : s.receive.Sound := by
  unfold Connection.receive
  cases hc : s.channel with
  | nil => exact h
  | cons c cs =>
    cases c with
    | pending n lane category => exact h.receive_pending hc
    | ready e => exact h.receive_ready hc
    | cancel n lane => exact h.receive_cancel hc

end Receive

/-! ### Starting an event -/

/-- The connection once the lane of the event has started it. -/
def starting (s : Connection M C) (event : InboundEvent M) (queue : InboundQueue M) :
    Connection M C :=
  { s with
    actor := { s.actor.setQueue event.lane queue with
      active := s.actor.active ++ [event]
      activeLanes := Function.update s.actor.activeLanes event.lane (some event.sequence) }
    log := { s.log with started := s.log.started ++ [event] } }

section Start

variable {e : InboundEvent M} {queue : InboundQueue M}

@[simp] lemma queues_starting (event : InboundEvent M) (queue : InboundQueue M) :
    (s.starting event queue).actor.queues = Function.update s.actor.queues event.lane queue := rfl

lemma Working.starting (h : s.Working) (hidle : s.actor.activeLanes e.lane = none) :
    (s.starting e queue).Working := by
  have hnoActive : ∀ e' ∈ s.actor.active, e'.lane ≠ e.lane := by
    intro e' he' hlane
    rw [(h.activeLanes e.lane e'.sequence).2 ⟨e', he', hlane, rfl⟩] at hidle
    cases hidle
  constructor
  case activeLanes =>
    intro l k
    simp only [Connection.starting, List.mem_append, List.mem_singleton]
    by_cases hl : l = e.lane
    · subst hl
      rw [Function.update_self, Option.some.injEq]
      constructor
      · exact fun hk => ⟨e, Or.inr rfl, rfl, hk⟩
      · rintro ⟨e', he' | rfl, hlane, hk⟩
        · exact absurd hlane (hnoActive e' he')
        · exact hk
    · rw [Function.update_of_ne hl, h.activeLanes l k]
      constructor
      · rintro ⟨e', he', hlane, hk⟩
        exact ⟨e', Or.inl he', hlane, hk⟩
      · rintro ⟨e', he' | rfl, hlane, hk⟩
        · exact ⟨e', he', hlane, hk⟩
        · exact absurd hlane.symm hl
  case single =>
    rw [Connection.starting, List.map_append, List.nodup_append]
    refine ⟨h.single, List.nodup_singleton _, ?_⟩
    rintro x hx y hy rfl
    obtain ⟨e', he', rfl⟩ := List.mem_map.1 hx
    exact hnoActive e' he' (List.mem_singleton.1 hy)

lemma Conserved.starting (h : s.Conserved)
    (hq : s.actor.queues e.lane = ⟨e.sequence, some e⟩ :: queue) :
    (s.starting e queue).Conserved := by
  constructor
  case conserved =>
    have hevents : ((s.actor.queues e.lane).events : Multiset (InboundEvent M)) =
        InboundQueue.events queue + {e} := by
      rw [hq, InboundQueue.events_cons_some, ← Multiset.cons_coe, ← Multiset.singleton_add,
        add_comm]
    have hflat := PerLane.flatMap_update_sub nodup_all (mem_all _) hevents
    have hcons := h.conserved
    simp only [waiting, ← Multiset.coe_add, ← hflat] at hcons
    simp only [waiting, queues_starting]
    simp only [Connection.starting, ← Multiset.coe_add, Multiset.coe_singleton]
    rw [← hcons]
    abel
  case startedOnce =>
    simp only [Connection.starting, ← Multiset.coe_add, h.startedOnce]
    abel
  case reassembledOnce => exact h.reassembledOnce
  case reassembled => exact h.reassembled

/-- The event is the first of its lane, and nothing it waits for is before it. -/
lemma Sound.ordered_starting (h : s.Sound)
    (hq : s.actor.queues e.lane = ⟨e.sequence, some e⟩ :: queue)
    (hfree : e.lane ≠ .reassembly → s.actor.unfinished.blocks e.lane e.sequence = false) :
    (s.starting e queue).Ordered := by
  have hhead : ⟨e.sequence, some e⟩ ∈ s.actor.queues e.lane := by
    rw [hq]
    exact List.mem_cons_self
  have hasc := h.ascending e.lane
  rw [hq, InboundQueue.Ascending, List.pairwise_cons] at hasc
  have hwaiting : e ∈ s.waiting := Sound.mem_waiting (by
    rw [hq]
    exact List.mem_cons_self)
  constructor
  case inOrder =>
    intro l
    rw [Connection.starting, List.filter_append, List.map_append, List.pairwise_append]
    by_cases hl : e.lane = l
    · rw [List.filter_cons_of_pos (by simpa using hl), List.filter_nil]
      refine ⟨h.inOrder l, List.pairwise_singleton _ _, fun k hk k' hk' => ?_⟩
      obtain ⟨e₁, he₁, rfl⟩ := List.mem_map.1 hk
      rw [List.mem_filter, decide_eq_true_eq] at he₁
      rw [List.map_singleton, List.mem_singleton] at hk'
      rw [hk']
      exact h.ahead e₁ he₁.1 ⟨e.sequence, some e⟩ (by rw [he₁.2, ← hl]; exact hhead)
    · rw [List.filter_cons_of_neg (by simpa using hl), List.filter_nil]
      exact ⟨h.inOrder l, List.Pairwise.nil, fun _ _ _ hk' => absurd hk' List.not_mem_nil⟩
  case ahead =>
    intro e' he'
    rcases List.mem_append.1 he' with he' | he'
    · intro x hx
      refine h.ahead e' he' x ?_
      revert x
      exact forall_mem_update (P := fun l x => x ∈ s.actor.queues l) (fun x hx => by
        rw [hq]
        exact List.mem_cons_of_mem _ hx) (fun _ _ hx => hx) _
    · rw [List.mem_singleton.1 he', queues_starting, Function.update_self]
      exact hasc.1
  case barrier =>
    intro e' he' hlane k c hk hc
    rcases List.mem_append.1 he' with he' | he'
    · exact h.barrier e' he' hlane k c hk hc
    · rw [List.mem_singleton.1 he'] at hlane hc ⊢
      have hne := h.ne_of_unfinished hk (Or.inl hwaiting) hlane
      have hle : ¬ k < e.sequence := by
        intro hlt
        have hblocks := h.indexed.blocks_iff.2 ⟨k, c, hk, hlt, hc⟩
        rw [hfree hlane] at hblocks
        cases hblocks
      omega
  case later =>
    intro k l c hp e' he'
    rcases List.mem_append.1 he' with he' | he'
    · exact h.later k l c hp e' he'
    · rw [List.mem_singleton.1 he']
      exact h.fresh k l c hp e.lane _ hhead

lemma Sound.starting (h : s.Sound) (hidle : s.actor.activeLanes e.lane = none)
    (hq : s.actor.queues e.lane = ⟨e.sequence, some e⟩ :: queue)
    (hfree : e.lane ≠ .reassembly → s.actor.unfinished.blocks e.lane e.sequence = false) :
    (s.starting e queue).Sound where
  toTickets := h.toTickets.frame rfl rfl rfl rfl (List.Subset.refl _)
  toAnswered := h.toAnswered.frame rfl rfl fun l k => by
    by_cases hl : l = e.lane
    · subst hl
      simp [hq]
    · rw [queues_starting, Function.update_of_ne hl]
  toQueued := by
    have hasc := h.ascending e.lane
    rw [hq] at hasc
    refine h.toQueued.update (List.suffix_refl _) rfl (List.pairwise_cons.1 hasc).2 fun x hx => ?_
    rw [hq]
    exact Or.inl (List.mem_cons_of_mem _ hx)
  toConserved := h.toConserved.starting hq
  toWorking := h.toWorking.starting hidle
  toBarrier := h.toBarrier.frame rfl (fun _ _ => rfl) (fun k => by
    rw [HoldsChunk, queues_starting, HoldsChunk]
    simp only [Connection.starting, List.mem_append, List.mem_singleton, or_and_right, exists_or,
      exists_eq_left]
    by_cases hlane : e.lane = .reassembly
    · rw [hlane] at hq
      rw [hlane, Function.update_self, hq]
      simp only [List.mem_cons, or_and_right, exists_or, exists_eq_left, true_and]
      rw [or_comm (a := e.sequence = k), or_assoc, or_comm (a := e.sequence = k)]
    · rw [Function.update_of_ne (Ne.symm hlane)]
      simp [hlane]) fun _ => Or.inl
  toOrdered := h.ordered_starting hq hfree

lemma Sound.dispatchLane (h : s.Sound) (lane : InboundLane) : (s.dispatchLane lane).Sound := by
  unfold Connection.dispatchLane
  rcases s.actor.dispatchLane_cases lane with hsame | ⟨n, e, queue, hq, hidle, hfree, hd⟩
  · simpa [hsame] using h
  have hactive : (s.actor.active ++ [e]).drop s.actor.active.length = [e] := by simp
  obtain ⟨rfl, rfl⟩ := h.held lane ⟨n, some e⟩ (by rw [hq]; exact List.mem_cons_self) e rfl
  simp only [hd, hactive]
  exact h.starting hidle hq hfree

lemma Sound.dispatch (h : s.Sound) : s.dispatch.Sound := by
  unfold Connection.dispatch
  generalize InboundLane.all = lanes
  induction lanes generalizing s with
  | nil => exact h
  | cons lane lanes ih => exact ih (h.dispatchLane lane)

end Start

/-! ### Finishing an event -/

def finishing (s : Connection M C) (index : ℕ) (event : InboundEvent M)
    (reassembler : MessageReassembler C) : Connection M C :=
  { s with
    actor := { s.actor with
      active := s.actor.active.eraseIdx index
      activeLanes := Function.update s.actor.activeLanes event.lane none
      unfinished := if event.lane = .reassembly then s.actor.unfinished.end_ event.sequence
        else s.actor.unfinished }
    reassembler := reassembler
    log := { s.log with finished := s.log.finished ++ [event] } }

section Finish

variable {index : ℕ} {e : InboundEvent M} {r : MessageReassembler C}

lemma Working.lane_ne (h : s.Working) (he : s.actor.active[index]? = some e) :
    ∀ e' ∈ s.actor.active.eraseIdx index, e'.lane ≠ e.lane := by
  intro e' he' hlane
  have hsingle := (map_eraseIdx_perm he (·.lane)).nodup_iff.2 h.single
  exact (List.nodup_cons.1 hsingle).1 (List.mem_map.2 ⟨e', he', hlane⟩)

lemma Working.finishing (h : s.Working) (he : s.actor.active[index]? = some e) :
    (s.finishing index e r).Working := by
  constructor
  case activeLanes =>
    intro l k
    simp only [Connection.finishing]
    by_cases hl : l = e.lane
    · subst hl
      rw [Function.update_self]
      simp only [reduceCtorEq, false_iff, not_exists, not_and]
      exact fun e' he' hlane => absurd hlane (h.lane_ne he e' he')
    · rw [Function.update_of_ne hl, h.activeLanes l k]
      constructor
      · rintro ⟨e', he', hlane, hk⟩
        rcases (mem_eraseIdx_or he).1 he' with rfl | he'
        · exact absurd hlane.symm hl
        · exact ⟨e', he', hlane, hk⟩
      · rintro ⟨e', he', hlane, hk⟩
        exact ⟨e', List.mem_of_mem_eraseIdx he', hlane, hk⟩
  case single =>
    exact (List.nodup_cons.1 ((map_eraseIdx_perm he (·.lane)).nodup_iff.2 h.single)).2

lemma Conserved.finishing (h : s.Conserved) (he : s.actor.active[index]? = some e) :
    (s.finishing index e r).Conserved := by
  have hactive : (s.actor.active : Multiset (InboundEvent M)) =
      ([e] : List (InboundEvent M)) + s.actor.active.eraseIdx index := by
    rw [Multiset.coe_add]
    exact (Multiset.coe_eq_coe.2 (by simpa using map_eraseIdx_perm he id)).symm
  constructor
  case conserved =>
    have hcons := h.conserved
    rw [hactive] at hcons
    simp only [waiting, Connection.finishing, ← Multiset.coe_add] at hcons ⊢
    rw [← hcons]
    abel
  case startedOnce =>
    simp only [Connection.finishing, h.startedOnce, hactive, ← Multiset.coe_add]
    abel
  case reassembledOnce => exact h.reassembledOnce
  case reassembled =>
    intro m hm
    obtain ⟨hlane, c, hc, hclane, hcseq⟩ := h.reassembled m hm
    exact ⟨hlane, c, List.mem_append_left _ hc, hclane, hcseq⟩

lemma Sound.barrier_finishing (h : s.Sound) (he : s.actor.active[index]? = some e) :
    (s.finishing index e r).Barrier := by
  by_cases hlane : e.lane = .reassembly
  · refine h.toBarrier.end_ (if_pos hlane) rfl (fun k => ?_) rfl
    have hqueue : ∀ x ∈ s.actor.queues .reassembly, e.sequence < x.sequence := by
      rw [← hlane]
      exact h.ahead e (h.mem_started.2 (Or.inl (List.mem_of_getElem? he)))
    have hnone : ∀ e' ∈ s.actor.active.eraseIdx index, ¬ e'.lane = .reassembly := by
      rw [← hlane]
      exact h.lane_ne he
    simp only [HoldsChunk, Connection.finishing, mem_eraseIdx_or he]
    constructor
    · rintro (⟨x, hx, rfl⟩ | ⟨e', he', helane, -⟩)
      · exact ⟨Or.inl ⟨x, hx, rfl⟩, (hqueue x hx).ne'⟩
      · exact absurd helane (hnone e' he')
    · rintro ⟨hx | ⟨e', rfl | he', helane, rfl⟩, hne⟩
      · exact Or.inl hx
      · exact absurd rfl hne
      · exact absurd helane (hnone e' he')
  · refine h.toBarrier.frame (if_neg hlane) (fun _ _ => rfl) (fun k => ?_) fun _ => Or.inl
    simp only [HoldsChunk, Connection.finishing, mem_eraseIdx_or he, or_and_right, exists_or,
      exists_eq_left, hlane, false_and, false_or]

lemma Sound.finishing (h : s.Sound) (he : s.actor.active[index]? = some e)
    (r : MessageReassembler C) : (s.finishing index e r).Sound where
  toTickets := h.toTickets.frame rfl rfl rfl rfl (List.Subset.refl _)
  toAnswered := h.toAnswered.frame rfl rfl fun _ _ => Iff.rfl
  toQueued := h.toQueued.frame rfl rfl
  toConserved := h.toConserved.finishing he
  toWorking := h.toWorking.finishing he
  toBarrier := h.barrier_finishing he
  toOrdered := h.toOrdered.frame rfl (fun _ x hx => Or.inl ⟨x, hx, rfl⟩) (fun k c hk => by
    simp only [Connection.finishing] at hk
    split at hk
    · exact Or.inl (UnfinishedReassembly.category_of_end_ hk)
    · exact Or.inl hk) fun _ _ _ => Or.inl

end Finish

/-! ### Handing a message on -/

def handing (s : Connection M C) (m : InboundEvent M) : Connection M C :=
  { s with
    actor := s.actor.setQueue m.lane ((s.actor.queues m.lane).pushReady m)
    log := { s.log with reassembled := s.log.reassembled ++ [m] } }

section HandOver

variable {m : InboundEvent M}

@[simp] lemma queues_handing (m : InboundEvent M) : (s.handing m).actor.queues =
    Function.update s.actor.queues m.lane ((s.actor.queues m.lane).pushReady m) := rfl

lemma Conserved.handing (h : s.Conserved) (hlane : m.lane ≠ .reassembly)
    (hevents : (((s.actor.queues m.lane).pushReady m).events : Multiset (InboundEvent M)) =
      (s.actor.queues m.lane).events + {m})
    (hchunk : ∃ c ∈ s.log.finished, c.lane = .reassembly ∧ c.sequence = m.sequence)
    (honce : ∀ e ∈ s.log.reassembled, e.sequence ≠ m.sequence) : (s.handing m).Conserved := by
  constructor
  case conserved =>
    have hcons := h.conserved
    simp only [waiting, ← Multiset.coe_add] at hcons
    simp only [waiting, Connection.handing, InboundActor.queues_setQueue,
      InboundActor.active_setQueue, ← Multiset.coe_add,
      PerLane.flatMap_update_add nodup_all (mem_all _) hevents, Multiset.coe_singleton]
    refine Eq.trans ?_ (add_assoc _ _ _)
    rw [← hcons]
    abel
  case startedOnce => exact h.startedOnce
  case reassembledOnce =>
    rw [Connection.handing, List.map_append, List.nodup_append]
    refine ⟨h.reassembledOnce, List.nodup_singleton _, ?_⟩
    rintro k hk k' hk' rfl
    obtain ⟨e, he, rfl⟩ := List.mem_map.1 hk
    exact honce e he (List.mem_singleton.1 hk')
  case reassembled =>
    intro e he
    rcases List.mem_append.1 he with he | he
    · exact h.reassembled e he
    · rw [List.mem_singleton.1 he]
      exact ⟨hlane, hchunk⟩

/-- A message a finished chunk completed enters its lane at the chunk's sequence. -/
lemma Sound.handing (h : s.Sound) (hlane : m.lane ≠ .reassembly)
    (hnone : s.actor.unfinished.category.get? m.sequence = none)
    (hchunk : ∃ c ∈ s.log.finished, c.lane = .reassembly ∧ c.sequence = m.sequence)
    (honce : ∀ e ∈ s.log.reassembled, e.sequence ≠ m.sequence)
    (hfree : ∀ x ∈ s.actor.queues m.lane, x.sequence ≠ m.sequence)
    (hahead : ∀ e ∈ s.log.started, e.lane = m.lane → e.sequence < m.sequence) :
    (s.handing m).Sound := by
  obtain ⟨l₁, l₂, hq, hpush, hlow, hhigh⟩ :=
    InboundQueue.pushReady_inserted (h.ascending m.lane) hfree
  have hmem : ∀ x ∈ (s.actor.queues m.lane).pushReady m,
      x ∈ s.actor.queues m.lane ∨ x = ⟨m.sequence, some m⟩ := by
    intro x hx
    rw [hpush, List.mem_append, List.mem_cons] at hx
    rw [hq, List.mem_append]
    tauto
  exact {
    toTickets := h.toTickets.frame rfl rfl rfl rfl (List.Subset.refl _)
    toAnswered := h.toAnswered.frame rfl rfl fun l k => by
      by_cases hl : l = m.lane
      · subst hl
        rw [queues_handing, Function.update_self, hpush, hq]
        simp
      · rw [queues_handing, Function.update_of_ne hl]
    toQueued := by
      refine h.toQueued.update (List.suffix_refl _) rfl ?_ fun x hx => ?_
      · have hasc := h.ascending m.lane
        rw [hq] at hasc
        rw [hpush]
        exact InboundQueue.ascending_append_cons.2 ⟨hasc, hlow, hhigh⟩
      · rcases hmem x hx with hx | rfl
        · exact Or.inl hx
        · refine Or.inr ⟨fun k l category hp => ?_, fun e he => ?_⟩
          · obtain ⟨c, hc, -, hcseq⟩ := hchunk
            rw [← hcseq]
            exact h.later k l category hp c (h.mem_started.2 (Or.inr hc))
          · obtain rfl := Option.some.inj he
            exact ⟨rfl, rfl⟩
    toConserved := by
      refine h.toConserved.handing hlane ?_ hchunk honce
      rw [hpush, hq]
      simp only [InboundQueue.events_append, InboundQueue.events_cons_some, ← Multiset.coe_add,
        ← Multiset.cons_coe, ← Multiset.singleton_add]
      abel
    toWorking := h.toWorking.frame rfl rfl
    toBarrier := by
      refine h.toBarrier.frame rfl (fun _ _ => rfl) (fun k => ?_) fun e he => ?_
      · rw [HoldsChunk, queues_handing, Function.update_of_ne hlane.symm]
        rfl
      · rcases List.mem_append.1 he with he | he
        · exact Or.inl he
        · rw [List.mem_singleton.1 he]
          exact Or.inr hnone
    toOrdered := by
      refine h.toOrdered.frame rfl ?_ (fun _ _ => Or.inl) fun _ _ _ => Or.inl
      refine forall_mem_update (fun x hx => ?_) fun l x hx => Or.inl ⟨x, hx, rfl⟩
      rcases hmem x hx with hx | rfl
      · exact Or.inl ⟨x, hx, rfl⟩
      · exact Or.inr hahead }

lemma Sound.complete (h : s.Sound) (index : ℕ) (charge : C) (env : EventEnv M) :
    (s.complete index charge env).Sound := by
  unfold Connection.complete
  cases he : s.actor.active[index]? with
  | none => exact h
  | some e =>
    obtain ⟨hlane, hseq, hnext⟩ := processEvent_spec s.reassembler charge e env
    rcases hp : processEvent s.reassembler charge e env with ⟨⟨lane, n, next⟩, r⟩
    rw [hp] at hlane hseq hnext
    simp only at hlane hseq hnext
    subst hlane hseq
    have hfinish := h.finishing he r
    simp only [hp, InboundActor.handleCompletion_eq]
    cases next with
    | none =>
      simp only [Option.toList_none, List.append_nil]
      exact hfinish
    | some m =>
      obtain ⟨hchunk, hm, hmlane, hcategory⟩ := hnext m rfl
      have hactive := List.mem_of_getElem? he
      have hcommitted := h.mem_committed_of_reassembly (Or.inr (Or.inl hactive)) hchunk
      have hunfinished : s.actor.unfinished.category.get? e.sequence = some e.category := by
        refine (h.unfinished _ _).2 ⟨?_, Or.inr ⟨e, hactive, hchunk, rfl⟩⟩
        rw [← hchunk]
        exact h.committed e hcommitted
      refine hfinish.handing hmlane ?_ ⟨e, by simp [Connection.finishing], hchunk, hm.symm⟩ ?_ ?_ ?_
      · simp only [Connection.finishing, if_pos hchunk, UnfinishedReassembly.category_end_,
          if_pos hm]
      · intro e' he' hseq
        rw [hm] at hseq
        rw [← hseq, h.handed e' he'] at hunfinished
        cases hunfinished
      · intro x hx hxm
        rcases hev : x.event with _ | e'
        · obtain ⟨category, hr⟩ := h.reserved_of_vacant
            (Or.inr (by rw [← hev]; exact hx))
          rw [hxm, hm, ((h.unfinished _ _).1 hunfinished).1, Option.some.injEq, Prod.mk.injEq] at hr
          exact hmlane hr.1.symm
        · obtain ⟨hes, hel⟩ := h.held m.lane x hx e' hev
          refine h.ne_of_unfinished hunfinished (e := e') (Or.inl (Sound.mem_waiting
            (InboundQueue.mem_events.2 ⟨x, hx, hev⟩))) (by rw [hel]; exact hmlane) ?_
          rw [hes, hxm, hm]
      · intro e' he' hel
        rw [hm]
        refine h.barrier e' he' (by rw [hel]; exact hmlane) _ _ hunfinished ?_
        rw [hel]
        exact hcategory

end HandOver

/-! ### Runs -/

/-- Nothing the actor keeps depends on the clock of the reassembler. -/
lemma Sound.cleanup (h : s.Sound) (now : ℕ) (credit : Option ChannelLane → ℕ) :
    (s.cleanup now credit).Sound where
  toTickets := h.toTickets.frame rfl rfl rfl rfl (List.Subset.refl _)
  toAnswered := h.toAnswered.frame rfl rfl fun _ _ => Iff.rfl
  toQueued := h.toQueued.frame rfl rfl
  toConserved := h.toConserved.frame [] (add_zero _).symm (List.append_nil _).symm rfl rfl rfl rfl
  toWorking := h.toWorking.frame rfl rfl
  toBarrier := h.toBarrier.frame rfl (fun _ _ => rfl) (fun _ => Iff.rfl) fun _ => Or.inl
  toOrdered := h.toOrdered.frame rfl (fun _ x hx => Or.inl ⟨x, hx, rfl⟩) (fun _ _ => Or.inl)
    fun _ _ _ => Or.inl

lemma Sound.step (h : s.Sound) (t : InboundStep M C) : (s.step t).Sound := by
  cases t with
  | reserve message carrier => exact h.reserveTicket message carrier
  | commit index => exact h.commit index
  | drop index => exact h.dropTicket index
  | receive => exact h.receive
  | dispatch => exact h.dispatch
  | complete index charge env => exact h.complete index charge env
  | cleanup now credit => exact h.cleanup now credit

lemma sound_new (limits : ReassemblyLimits) : (new limits : Connection M C).Sound where
  toTickets := by constructor <;> simp [new]
  toAnswered := by constructor <;> simp [new, answers, Vacant, InboundActor.new]
  toQueued := by
    constructor
    case ascending => exact fun _ => List.Pairwise.nil
    all_goals simp [new, InboundActor.new]
  toConserved := by constructor <;> simp [new, waiting, InboundActor.new, InboundLane.all]
  toWorking := by constructor <;> simp [new, InboundActor.new]
  toBarrier := by
    constructor
    case indexed => exact UnfinishedReassembly.indexed_empty
    case unfinished =>
      simp [new, InboundActor.new, UnfinishedReassembly.empty, HoldsChunk, BTreeMap.get?,
        BTreeMap.empty]
    case handed => simp [new]
  toOrdered := by constructor <;> simp [new]

lemma sound_run (limits : ReassemblyLimits) (steps : List (InboundStep M C)) :
    (run limits steps).Sound := by
  unfold run
  have hgen : ∀ s : Connection M C, s.Sound → (steps.foldl step s).Sound := by
    induction steps with
    | nil => exact fun s h => h
    | cons t steps ih => exact fun s h => ih _ (h.step t)
  exact hgen _ (sound_new limits)

/-! ### Progress -/

section Progress

variable {a : InboundActor M} {lane : InboundLane}

/-- An idle lane starts its front event unless the barrier holds it back. -/
lemma active_dispatchLane {n : ℕ} {e : InboundEvent M} {queue : InboundQueue M}
    (hidle : a.activeLanes lane = none) (hq : a.queues lane = ⟨n, some e⟩ :: queue)
    (hfree : lane ≠ .reassembly → a.unfinished.blocks lane n = false) :
    (a.dispatchLane lane).active = a.active ++ [e] := by
  unfold InboundActor.dispatchLane
  rw [if_neg (by simp [hidle]), hq]
  simp only [InboundQueue.frontSequence, List.head?_cons, Option.map_some, InboundQueue.pop]
  rw [if_neg]
  rintro ⟨hlane, hblocks⟩
  rw [hfree hlane] at hblocks
  cases hblocks

lemma active_foldl_dispatchLane (lanes : List InboundLane) :
    a.active <+: (lanes.foldl InboundActor.dispatchLane a).active := by
  induction lanes generalizing a with
  | nil => exact List.prefix_refl _
  | cons lane lanes ih =>
    refine List.IsPrefix.trans ?_ ih
    rcases a.dispatchLane_cases lane with hsame | ⟨n, e, queue, -, -, -, hd⟩
    · rw [hsame]
    · rw [hd]
      exact List.prefix_append _ _

/-- A pass that starts nothing found nothing to start in any lane. -/
lemma dispatchLane_nil (lanes : List InboundLane)
    (h : (lanes.foldl InboundActor.dispatchLane a).active = []) :
    ∀ lane ∈ lanes, (a.dispatchLane lane).active = [] := by
  induction lanes generalizing a with
  | nil => simp
  | cons lane lanes ih =>
    have hfirst : (a.dispatchLane lane).active = [] := by
      have hpre := active_foldl_dispatchLane (a := a.dispatchLane lane) lanes
      rw [List.foldl_cons] at h
      rw [h] at hpre
      exact List.prefix_nil.1 hpre
    have hsame : a.dispatchLane lane = a := by
      rcases a.dispatchLane_cases lane with hsame | ⟨n, e, queue, -, -, -, hd⟩
      · exact hsame
      · rw [hd] at hfirst
        simp at hfirst
    intro l hl
    rcases List.mem_cons.1 hl with rfl | hl
    · exact hfirst
    · rw [List.foldl_cons, hsame] at h
      exact ih h l hl

end Progress

/-- Nothing is on its way to the actor, and the actor does nothing. -/
def Quiet (s : Connection M C) : Prop :=
  s.channel = [] ∧ s.tasks = [] ∧ s.actor.active = []

lemma Sound.queues_nil (h : s.Sound) (hquiet : s.Quiet)
    (hstuck : s.actor.dispatchRunnable.active = []) (lane : InboundLane) :
    s.actor.queues lane = [] := by
  obtain ⟨hchannel, htasks, hactive⟩ := hquiet
  have hnothing := dispatchLane_nil InboundLane.all hstuck
  have hidle : ∀ lane, s.actor.activeLanes lane = none := by
    intro lane
    by_contra hsome
    obtain ⟨n, hn⟩ := Option.ne_none_iff_exists'.1 hsome
    obtain ⟨e, he, -⟩ := (h.activeLanes lane n).1 hn
    rw [hactive] at he
    cases he
  have hready : ∀ lane, ∀ x ∈ s.actor.queues lane, ∃ e, x.event = some e := by
    intro lane x hx
    rcases hev : x.event with _ | e
    · have hanswer := (h.answered lane x.sequence).2 (Or.inr (by rw [← hev]; exact hx))
      simp [answers, hchannel, htasks] at hanswer
    · exact ⟨e, rfl⟩
  have hfront : ∀ lane n, (∀ k category, s.actor.unfinished.category.get? k = some category →
      lane ≠ .reassembly → n ≤ k) → s.actor.queues lane ≠ [] →
      (s.actor.queues lane).frontSequence = some n → False := by
    intro lane n hfree hne hn
    obtain ⟨⟨k, o⟩, queue, hq⟩ := List.exists_cons_of_ne_nil hne
    obtain ⟨e, rfl⟩ : ∃ e, o = some e := hready lane ⟨k, o⟩ (by rw [hq]; exact List.mem_cons_self)
    rw [hq] at hn
    obtain rfl : k = n := Option.some.inj hn
    have hstart := active_dispatchLane (hidle lane) hq fun hlane => by
      by_contra hblocks
      rw [Bool.not_eq_false] at hblocks
      obtain ⟨j, c, hj, hlt, -⟩ := h.indexed.blocks_iff.1 hblocks
      have := hfree j c hj hlane
      omega
    rw [hnothing lane (mem_all lane), hactive] at hstart
    cases hstart
  have hreassembly : s.actor.queues .reassembly = [] := by
    by_contra hne
    obtain ⟨x, queue, hq⟩ := List.exists_cons_of_ne_nil hne
    exact hfront .reassembly x.sequence (fun _ _ _ hlane => absurd rfl hlane) hne (by rw [hq]; rfl)
  by_contra hne
  obtain ⟨x, queue, hq⟩ := List.exists_cons_of_ne_nil hne
  refine hfront lane x.sequence (fun k category hk _ => ?_) hne (by rw [hq]; rfl)
  rcases ((h.unfinished k category).1 hk).2 with ⟨y, hy, -⟩ | ⟨e, he, -⟩
  · rw [hreassembly] at hy
    cases hy
  · rw [hactive] at he
    cases he

/-! ### The order of a category -/

/-- The messages of a category start in the order of their tickets, one at a time: a whole frame
at its own, a reassembled message at that of the chunk that completed it. -/
structure KeepsOrder (s : Connection M C) : Prop where
  inOrder : ∀ lane, ((s.log.started.filter (·.lane = lane)).map (·.sequence)).Pairwise (· < ·)
  oneAtATime : ∀ lane, (s.actor.active.filter (·.lane = lane)).length ≤ 1
  ownSequence : ∀ e ∈ s.log.started,
    e ∈ s.log.committed ∧ s.log.reserved[e.sequence]? = some (e.lane, e.category) ∨
    e ∈ s.log.reassembled ∧ e.lane ≠ .reassembly ∧
      ∃ c ∈ s.log.finished, c ∈ s.log.committed ∧ c.lane = .reassembly ∧ c.sequence = e.sequence

/-- Every event committed, and every message its chunks completed, waits, is processed, or was
processed, once. -/
structure ProcessesOnce (s : Connection M C) : Prop where
  conserved : s.waiting ++ s.actor.active ++ s.log.finished ~ s.log.committed ++ s.log.reassembled
  started : s.log.started ~ s.actor.active ++ s.log.finished
  distinct : (s.log.committed ++ s.log.reassembled).Pairwise fun e e' =>
    e.sequence ≠ e'.sequence ∨ e.lane ≠ e'.lane

/-- A quiet actor starts some event, unless its queues are empty and every event is processed. -/
def Progresses (s : Connection M C) : Prop :=
  s.Quiet → s.actor.dispatchRunnable.active = [] →
    (∀ lane, s.actor.queues lane = []) ∧ s.log.finished ~ s.log.committed ++ s.log.reassembled

lemma Sound.keepsOrder (h : s.Sound) : s.KeepsOrder where
  inOrder := h.inOrder
  oneAtATime := by
    intro lane
    have hcount := List.nodup_iff_count_le_one.1 h.single lane
    rw [List.count_eq_countP, List.countP_map, List.countP_eq_length_filter] at hcount
    refine (Eq.le ?_).trans hcount
    congr 1
  ownSequence := by
    intro e he
    rcases h.mem_committed_or (Or.inr (h.mem_started.1 he)) with hc | hr
    · exact Or.inl ⟨hc, h.committed e hc⟩
    · obtain ⟨hlane, c, hc, hclane, hcseq⟩ := h.reassembled e hr
      exact Or.inr ⟨hr, hlane, c, hc, h.mem_committed_of_reassembly (Or.inr (Or.inr hc)) hclane,
        hclane, hcseq⟩

lemma Sound.processesOnce (h : s.Sound) : s.ProcessesOnce where
  conserved := by
    have hcons := h.conserved
    simp only [Multiset.coe_add] at hcons
    exact Multiset.coe_eq_coe.1 hcons
  started := by
    have hstarted := h.startedOnce
    rw [Multiset.coe_add] at hstarted
    exact Multiset.coe_eq_coe.1 hstarted
  distinct := by
    refine List.pairwise_append.2 ⟨?_, ?_, fun e he m hm => ?_⟩
    · exact (List.pairwise_map.1 h.committedOnce.of_append_right).imp Or.inl
    · exact (List.pairwise_map.1 h.reassembledOnce).imp Or.inl
    · obtain ⟨hlane, c, hc, hclane, hcseq⟩ := h.reassembled m hm
      have hcm := h.committed c (h.mem_committed_of_reassembly (Or.inr (Or.inr hc)) hclane)
      have hem := h.committed e he
      by_contra hsame
      rw [not_or, not_not, not_not] at hsame
      rw [hsame.1, ← hcseq, hcm, Option.some.injEq, Prod.mk.injEq] at hem
      exact hlane (hsame.2.symm.trans (hem.1.symm.trans hclane))

lemma Sound.progresses (h : s.Sound) : s.Progresses := by
  intro hquiet hstuck
  have hnil := h.queues_nil hquiet hstuck
  refine ⟨hnil, ?_⟩
  have hperm := h.processesOnce.conserved
  rw [waiting, hquiet.1, hquiet.2.2] at hperm
  simpa [hnil, InboundLane.all] using hperm

/-- However its tickets, commands and tasks interleave, a connection's messages keep the order of
their category, each event is processed once, and the actor is never stuck. -/
theorem run_keepsOrder (limits : ReassemblyLimits) (steps : List (InboundStep M C)) :
    (run limits steps).KeepsOrder ∧ (run limits steps).ProcessesOnce ∧
      (run limits steps).Progresses :=
  ⟨(sound_run limits steps).keepsOrder, (sound_run limits steps).processesOnce,
    (sound_run limits steps).progresses⟩

end Connection

end Rings.Inbound
