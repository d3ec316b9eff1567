import Rings.Dispatch
import Mathlib.Data.List.TakeWhile

/-!
Runs of a namespace's queue: its bounds, its order, and what a loss reaches.

The queue hands over what entered it in order, so a `Dropped` fact reaches the protocol after
every item that stands before it. A loss that finds a `Dropped` of its peer waiting adds none: it
is told after everything that concerns the peer exactly when nothing that concerns the peer has
entered behind the waiting fact.
-/

namespace Rings.Dispatch

namespace NamespaceQueue

variable {q : NamespaceQueue} {item : Queued} {peer : Did}

def holding (q : NamespaceQueue) : List Queued :=
  match q.worker with
  | .waiting => q.queue
  | .took item | .dispatching item => item :: q.queue

@[simp] lemma waiting_send : (q.send item).waiting = q.waiting ++ [item] := by
  unfold waiting send
  cases q.worker <;> simp

@[simp] lemma holding_send : (q.send item).holding = q.holding ++ [item] := by
  unfold holding send
  cases q.worker <;> simp

@[simp] lemma held_send : (q.send item).held = q.held := rfl

lemma tellDropped_of_mem (h : peer ∈ q.held.dropped) : q.tellDropped peer = q := by
  unfold tellDropped Held.markDropped
  simp only [Finset.insert_eq_of_mem h, h, not_true_eq_false, decide_false, Bool.false_eq_true,
    if_false]

lemma tellDropped_of_notMem (h : peer ∉ q.held.dropped) : q.tellDropped peer =
    { q with held := { q.held with dropped := insert peer q.held.dropped } }.send
      (.fact (.dropped peer)) := by
  unfold tellDropped Held.markDropped
  simp only [h, not_false_eq_true, decide_true, if_true]

end NamespaceQueue

/-! ### The invariant -/

structure Bounded (q : NamespaceQueue) : Prop where
  envelopes : q.held.envelopes = q.holding.countP Queued.isEnvelope
  weight : q.held.weight = (q.holding.map Queued.weight).sum
  capacity : q.held.envelopes ≤ namespaceQueueCapacity
  bytes : q.held.weight ≤ namespaceQueueWeight ∨
    ∃ item ∈ q.holding, item.weight = q.held.weight

/-- A peer is marked while its `Dropped` waits, and at most one waits. -/
structure Marked (q : NamespaceQueue) : Prop where
  marks : ∀ peer, peer ∈ q.held.dropped ↔ .fact (.dropped peer) ∈ q.waiting
  once : ∀ peer, q.waiting.count (.fact (.dropped peer)) ≤ 1

section Steps

variable {q : NamespaceQueue}

lemma Bounded.fact (h : Bounded q) (fact : LinkFact) : Bounded (q.send (.fact fact)) where
  envelopes := by simp [h.envelopes, Queued.isEnvelope]
  weight := by simp [h.weight, Queued.weight]
  capacity := h.capacity
  bytes := by
    rcases h.bytes with hle | ⟨item, hmem, hw⟩
    · exact Or.inl hle
    · exact Or.inr ⟨item, by simp [hmem], hw⟩

lemma Bounded.tell (h : Bounded q) (peer : Did) : Bounded (q.tellDropped peer) := by
  by_cases hp : peer ∈ q.held.dropped
  · rw [NamespaceQueue.tellDropped_of_mem hp]
    exact h
  · rw [NamespaceQueue.tellDropped_of_notMem hp]
    have hmarked : Bounded
        { q with held := { q.held with dropped := insert peer q.held.dropped } } :=
      ⟨h.envelopes, h.weight, h.capacity, h.bytes⟩
    exact hmarked.fact _

lemma Bounded.submit (h : Bounded q) (sender : Did) (payload : List (Fin 256)) (weight : ℕ)
    (admitted : Bool) : Bounded (q.submit sender payload weight admitted) := by
  unfold NamespaceQueue.submit
  split
  · split
    · exact h.tell sender
    · exact h
  · rename_i hadmits
    simp only [Bool.not_eq_true', Bool.not_eq_false, Held.admits, Bool.and_eq_true,
      decide_eq_true_eq, Dispatch.admits, Bool.or_eq_true] at hadmits
    refine ⟨?_, ?_, ?_, ?_⟩
    · simp only [NamespaceQueue.holding_send, NamespaceQueue.held_send, Held.take,
        List.countP_append, h.envelopes]
      rfl
    · simp only [NamespaceQueue.holding_send, NamespaceQueue.held_send, Held.take, List.map_append,
        List.sum_append, h.weight]
      rfl
    · exact hadmits.1
    · rcases hadmits.2 with hzero | hle
      · -- a queue that holds no bytes admits any envelope
        refine Or.inr ⟨.envelope sender payload weight, by simp, ?_⟩
        simp only [NamespaceQueue.held_send, Held.take, hzero, Nat.zero_add]
        rfl
      · exact Or.inl hle

lemma Bounded.finish (h : Bounded q) : Bounded q.finish := by
  unfold NamespaceQueue.finish
  split
  · rename_i item hw
    have hholding : q.holding = item :: q.queue := by
      unfold NamespaceQueue.holding
      rw [hw]
    have henv := h.envelopes
    have hwt := h.weight
    rw [hholding, List.countP_cons] at henv
    rw [hholding, List.map_cons, List.sum_cons] at hwt
    cases item with
    | fact fact =>
      have hnone : q.held.envelopes = q.queue.countP Queued.isEnvelope := by
        simpa [Queued.isEnvelope] using henv
      have hsum : q.held.weight = (q.queue.map Queued.weight).sum := by
        simpa [Queued.weight] using hwt
      refine ⟨hnone, hsum, h.capacity, ?_⟩
      rcases h.bytes with hle | ⟨item, hmem, hi⟩
      · exact Or.inl hle
      · rw [hholding] at hmem
        rcases List.mem_cons.mp hmem with rfl | hmem
        · left
          change q.held.weight ≤ _
          rw [← hi]
          exact Nat.zero_le _
        · exact Or.inr ⟨item, hmem, hi⟩
    | envelope sender payload weight =>
      have hone : q.held.envelopes = q.queue.countP Queued.isEnvelope + 1 := by
        simpa [Queued.isEnvelope] using henv
      have hsum : q.held.weight = weight + (q.queue.map Queued.weight).sum := by
        simpa [Queued.weight] using hwt
      have hcap := h.capacity
      refine ⟨?_, ?_, ?_, ?_⟩
      · change q.held.envelopes - 1 = q.queue.countP Queued.isEnvelope
        omega
      · change q.held.weight - weight = (q.queue.map Queued.weight).sum
        omega
      · change q.held.envelopes - 1 ≤ _
        omega
      · change q.held.weight - weight ≤ _ ∨ ∃ item ∈ q.queue, item.weight = q.held.weight - weight
        rcases h.bytes with hle | ⟨item, hmem, hi⟩
        · left
          omega
        · rw [hholding] at hmem
          rcases List.mem_cons.mp hmem with rfl | hmem
          · -- the envelope that held everything is gone
            left
            change weight = q.held.weight at hi
            omega
          · have hle : item.weight ≤ (q.queue.map Queued.weight).sum :=
              List.le_sum_of_mem (List.mem_map_of_mem hmem)
            exact Or.inr ⟨item, hmem, by omega⟩
  · exact h

lemma Bounded.next (h : Bounded q) : Bounded q.next := by
  unfold NamespaceQueue.next
  split
  · rename_i item rest hw hq
    have hholding : q.holding = item :: rest := by
      unfold NamespaceQueue.holding
      rw [hw, hq]
    refine ⟨?_, ?_, h.capacity, ?_⟩
    · rw [show q.held.envelopes = _ from h.envelopes, hholding]
      rfl
    · rw [show q.held.weight = _ from h.weight, hholding]
      rfl
    · rcases h.bytes with hle | ⟨item, hmem, hi⟩
      · exact Or.inl hle
      · rw [hholding] at hmem
        exact Or.inr ⟨item, hmem, hi⟩
  · exact h

lemma Bounded.dispatch (h : Bounded q) : Bounded q.dispatch := by
  unfold NamespaceQueue.dispatch
  split
  · rename_i item hw
    have hholding : q.holding = item :: q.queue := by
      unfold NamespaceQueue.holding
      rw [hw]
    have hheld : ∀ held : Held, held.envelopes = q.held.envelopes → held.weight = q.held.weight →
        Bounded { q with worker := .dispatching item, held := held } := by
      intro held h1 h2
      refine ⟨?_, ?_, by rw [h1]; exact h.capacity, ?_⟩
      · rw [h1, h.envelopes, hholding]
        rfl
      · rw [h2, h.weight, hholding]
        rfl
      · rw [h2]
        rcases h.bytes with hle | ⟨item, hmem, hi⟩
        · exact Or.inl hle
        · rw [hholding] at hmem
          exact Or.inr ⟨item, hmem, hi⟩
    apply hheld
    · split <;> rfl
    · split <;> rfl
  · exact h

/-- **Bounds.** Every event keeps them. -/
lemma Bounded.step (h : Bounded q) (e : DispatchEvent) : Bounded (q.step e) := by
  cases e with
  | submit sender payload weight admitted => exact h.submit sender payload weight admitted
  | submitLinkFact fact =>
    cases fact with
    | dropped peer => exact h.tell peer
    | admitted peer => exact h.fact _
    | retired peer => exact h.fact _
  | next => exact h.next
  | dispatch => exact h.dispatch
  | finish => exact h.finish

/-- Sending an item that is no `Dropped` fact. -/
lemma Marked.send (h : Marked q) {item : Queued} (hitem : ∀ peer, item ≠ .fact (.dropped peer))
    {held : Held} (hheld : held.dropped = q.held.dropped) :
    Marked ({ q with held := held }.send item) where
  marks := by
    intro peer
    rw [NamespaceQueue.waiting_send, NamespaceQueue.held_send, List.mem_append,
      List.mem_singleton]
    change peer ∈ held.dropped ↔ _ ∈ q.waiting ∨ _
    rw [hheld, h.marks peer, or_iff_left (hitem peer).symm]
  once := by
    intro peer
    rw [NamespaceQueue.waiting_send, List.count_append, List.count_singleton,
      if_neg (by simpa using hitem peer)]
    exact h.once peer

lemma Marked.tell (h : Marked q) (peer : Did) : Marked (q.tellDropped peer) := by
  by_cases hp : peer ∈ q.held.dropped
  · rw [NamespaceQueue.tellDropped_of_mem hp]
    exact h
  · rw [NamespaceQueue.tellDropped_of_notMem hp]
    have hnot : .fact (.dropped peer) ∉ q.waiting := fun hmem => hp ((h.marks peer).mpr hmem)
    refine ⟨fun p => ?_, fun p => ?_⟩
    · rw [NamespaceQueue.waiting_send, NamespaceQueue.held_send, List.mem_append,
        List.mem_singleton, Finset.mem_insert, h.marks p, or_comm]
      simp only [Queued.fact.injEq, LinkFact.dropped.injEq]
      rfl
    · rw [NamespaceQueue.waiting_send, List.count_append, List.count_singleton]
      change q.waiting.count _ + _ ≤ 1
      by_cases heq : p = peer
      · subst heq
        rw [List.count_eq_zero_of_not_mem hnot]
        split <;> omega
      · rw [if_neg fun hc => heq (by
          have := beq_iff_eq.mp hc
          injection this with hfact
          injection hfact with hpeer
          exact hpeer.symm)]
        exact h.once p

lemma Marked.submit (h : Marked q) (sender : Did) (payload : List (Fin 256)) (weight : ℕ)
    (admitted : Bool) : Marked (q.submit sender payload weight admitted) := by
  unfold NamespaceQueue.submit
  split
  · split
    · exact h.tell sender
    · exact h
  · exact h.send (fun peer hp => by cases hp) rfl

lemma Marked.next (h : Marked q) : Marked q.next := by
  unfold NamespaceQueue.next
  split
  · rename_i item rest hw hq
    have hwaiting : q.waiting = item :: rest := by
      unfold NamespaceQueue.waiting
      rw [hw, hq]
    have hm := h.marks
    have ho := h.once
    rw [hwaiting] at hm ho
    exact ⟨hm, ho⟩
  · exact h

lemma Marked.dispatch (h : Marked q) : Marked q.dispatch := by
  unfold NamespaceQueue.dispatch
  split
  · rename_i item hw
    have hwaiting : q.waiting = item :: q.queue := by
      unfold NamespaceQueue.waiting
      rw [hw]
    have hm := h.marks
    have ho := h.once
    rw [hwaiting] at hm ho
    refine ⟨fun peer => ?_, fun peer => ?_⟩
    · change peer ∈ Held.dropped _ ↔ _ ∈ q.queue
      have hpeer := hm peer
      rw [List.mem_cons] at hpeer
      split
      · rename_i p
        change peer ∈ q.held.dropped.erase p ↔ _
        have honce := ho p
        rw [List.count_cons_self] at honce
        have hout : .fact (.dropped p) ∉ q.queue := fun hmem => by
          have := List.count_pos_iff.mpr hmem
          omega
        rw [Finset.mem_erase, hpeer]
        simp only [Queued.fact.injEq, LinkFact.dropped.injEq]
        constructor
        · rintro ⟨hne, rfl | hmem⟩
          · exact absurd rfl hne
          · exact hmem
        · intro hmem
          refine ⟨?_, Or.inr hmem⟩
          rintro rfl
          exact hout hmem
      · rename_i hitem
        rw [hpeer, or_iff_right fun heq => hitem peer heq.symm]
    · change q.queue.count _ ≤ 1
      exact (List.count_le_count_cons).trans (ho peer)
  · exact h

lemma Marked.finish (h : Marked q) : Marked q.finish := by
  unfold NamespaceQueue.finish
  split
  · rename_i item hw
    have hwaiting : q.waiting = q.queue := by
      unfold NamespaceQueue.waiting
      rw [hw]
    have hm := h.marks
    have ho := h.once
    rw [hwaiting] at hm ho
    refine ⟨fun peer => ?_, ho⟩
    change peer ∈ Held.dropped _ ↔ _ ∈ q.queue
    rw [← hm peer]
    split <;> rfl
  · exact h

/-- **Marks.** Every event keeps them. -/
lemma Marked.step (h : Marked q) (e : DispatchEvent) : Marked (q.step e) := by
  cases e with
  | submit sender payload weight admitted => exact h.submit sender payload weight admitted
  | submitLinkFact fact =>
    cases fact with
    | dropped peer => exact h.tell peer
    | admitted peer => exact h.send (fun p hp => by cases hp) rfl
    | retired peer => exact h.send (fun p hp => by cases hp) rfl
  | next => exact h.next
  | dispatch => exact h.dispatch
  | finish => exact h.finish

end Steps

/-! ### The order -/

namespace NamespaceQueue

variable (q : NamespaceQueue)

lemma waiting_tellDropped (peer : Did) : (q.tellDropped peer).waiting =
    q.waiting ++ (q.tellDropped peer).queue.drop q.queue.length := by
  by_cases hp : peer ∈ q.held.dropped
  · rw [tellDropped_of_mem hp, List.drop_length, List.append_nil]
  · rw [tellDropped_of_notMem hp, waiting_send]
    simp only [send, List.drop_left]
    rfl

lemma waiting_send_drop (item : Queued) (held : Held) :
    ({ q with held := held }.send item).waiting =
      q.waiting ++ ({ q with held := held }.send item).queue.drop q.queue.length := by
  rw [waiting_send]
  simp only [send, List.drop_left]
  rfl

/-- What enters waits behind what waits already. -/
lemma waiting_submit (sender : Did) (payload : List (Fin 256)) (weight : ℕ) (admitted : Bool) :
    (q.submit sender payload weight admitted).waiting =
      q.waiting ++ (q.submit sender payload weight admitted).queue.drop q.queue.length := by
  unfold submit
  split
  · split
    · exact q.waiting_tellDropped sender
    · rw [List.drop_length, List.append_nil]
  · exact q.waiting_send_drop _ _

lemma waiting_submitLinkFact (fact : LinkFact) : (q.submitLinkFact fact).waiting =
    q.waiting ++ (q.submitLinkFact fact).queue.drop q.queue.length := by
  cases fact with
  | dropped peer => exact q.waiting_tellDropped peer
  | admitted peer => exact q.waiting_send_drop _ q.held
  | retired peer => exact q.waiting_send_drop _ q.held

lemma waiting_next : q.next.waiting = q.waiting := by
  unfold next
  split
  · rename_i item rest hw hq
    unfold waiting
    rw [hw, hq]
  · rfl

lemma waiting_dispatch : q.waiting = q.observes .dispatch ++ q.dispatch.waiting := by
  unfold observes dispatch
  cases hw : q.worker <;> simp [waiting, hw]

lemma waiting_finish : q.finish.waiting = q.waiting := by
  unfold finish
  cases hw : q.worker <;> simp [waiting, hw]

def behindDropped (peer : Did) : List Queued :=
  (q.waiting.dropWhile (· ≠ .fact (.dropped peer))).tail

/-- No `Dropped` of the peer waits, or nothing that concerns the peer waits behind it. -/
def Fresh (peer : Did) : Prop :=
  peer ∈ q.held.dropped → ∀ item ∈ q.behindDropped peer, item.concerns peer = false

/-- A loss finds no `Dropped` of its peer waiting, or one behind which nothing concerns the peer. -/
def TellsAll (e : DispatchEvent) : Prop := ∀ peer, q.loses e = some peer → q.Fresh peer

instance (peer : Did) : Decidable (q.Fresh peer) :=
  inferInstanceAs (Decidable (_ → ∀ item ∈ _, _))

instance (e : DispatchEvent) : Decidable (q.TellsAll e) :=
  Option.decidableForallMem (q.loses e)

/-- A loss tells its peer's drop. -/
lemma step_of_loses {q : NamespaceQueue} {e : DispatchEvent} {peer : Did}
    (h : q.loses e = some peer) : q.step e = q.tellDropped peer := by
  cases e with
  | submit sender payload weight admitted =>
    simp only [loses] at h
    split at h
    · rename_i hc
      obtain rfl := Option.some.inj h
      rw [Bool.and_eq_true] at hc
      simp only [step, submit]
      rw [if_pos hc.1, if_pos hc.2]
    · cases h
  | submitLinkFact fact =>
    cases fact with
    | dropped p =>
      obtain rfl := Option.some.inj h
      rfl
    | admitted p => cases h
    | retired p => cases h
  | next => cases h
  | dispatch => cases h
  | finish => cases h

end NamespaceQueue

/-- A `Dropped` of the peer stands behind everything that concerns the peer among the first
`count` items. -/
def Told (entered : List Queued) (peer : Did) (count : ℕ) : Prop :=
  ∃ j : ℕ, entered[j]? = some (.fact (.dropped peer)) ∧ ∀ (i : ℕ) (item : Queued), i < count →
    entered[i]? = some item → item.concerns peer = true → i < j

lemma Told.mono {entered later : List Queued} {peer : Did} {count : ℕ}
    (h : Told entered peer count) (hcount : count ≤ entered.length) :
    Told (entered ++ later) peer count := by
  obtain ⟨j, hj, hall⟩ := h
  refine ⟨j, ?_, fun i item hi hitem hc => hall i item hi ?_ hc⟩
  · rw [List.getElem?_append_left (List.getElem?_eq_some_iff.mp hj).1, hj]
  · rwa [List.getElem?_append_left (by omega)] at hitem

/-- The waiting `Dropped` of a peer tells everything that entered exactly when nothing that
concerns the peer stands behind it. -/
lemma told_iff_behind {seen before behind : List Queued} {peer : Did}
    (hbehind : .fact (.dropped peer) ∉ behind) :
    Told (seen ++ (before ++ .fact (.dropped peer) :: behind)) peer
        (seen ++ (before ++ .fact (.dropped peer) :: behind)).length ↔
      ∀ item ∈ behind, item.concerns peer = false := by
  rw [← List.append_assoc]
  set front := seen ++ before
  have hget : ∀ i : ℕ, (front ++ .fact (.dropped peer) :: behind)[front.length + 1 + i]? =
      behind[i]? := by
    intro i
    rw [List.getElem?_append_right (by omega),
      show front.length + 1 + i - front.length = i + 1 by omega, List.getElem?_cons_succ]
  have hmid : (front ++ .fact (.dropped peer) :: behind)[front.length]? =
      some (.fact (.dropped peer)) := by
    rw [List.getElem?_append_right (le_refl _), Nat.sub_self, List.getElem?_cons_zero]
  constructor
  · rintro ⟨j, hj, hall⟩ item hmem
    obtain ⟨i, hi, rfl⟩ := List.mem_iff_getElem.mp hmem
    by_contra hc
    have hlt := hall (front.length + 1 + i) behind[i] (by simp; omega)
      (by rw [hget, List.getElem?_eq_getElem hi]) (by simpa using hc)
    -- that `Dropped` would stand behind the waiting one
    have hd := hget (j - (front.length + 1))
    rw [show front.length + 1 + (j - (front.length + 1)) = j by omega, hj] at hd
    exact hbehind (List.mem_of_getElem? hd.symm)
  · intro hnone
    refine ⟨front.length, hmid, fun i item hi hitem hc => ?_⟩
    by_contra hge
    rcases Nat.eq_or_lt_of_le (not_lt.mp hge) with he | hlt
    · rw [← he, hmid] at hitem
      rw [← Option.some.inj hitem] at hc
      cases hc
    · have hd := hget (i - (front.length + 1))
      rw [show front.length + 1 + (i - (front.length + 1)) = i by omega, hitem] at hd
      rw [hnone item (List.mem_of_getElem? hd.symm)] at hc
      cases hc

/-! ### Runs -/

structure Sound (h : History) : Prop where
  bounded : Bounded h.queue
  marked : Marked h.queue
  order : h.entered = h.observed ++ h.queue.waiting
  losses : ∀ l ∈ h.losses, l.2 ≤ h.entered.length

lemma sound_start : Sound .start where
  bounded := ⟨rfl, rfl, Nat.zero_le _, Or.inl (Nat.zero_le _)⟩
  marked := ⟨fun _ => by simp [History.start, NamespaceQueue.empty, NamespaceQueue.waiting],
    fun _ => Nat.zero_le _⟩
  order := rfl
  losses := fun _ h => by cases h

/-- What entered stays entered. -/
lemma step_entered (h : History) (e : DispatchEvent) :
    ∃ more, (h.step e).entered = h.entered ++ more := ⟨_, rfl⟩

lemma Sound.step {h : History} (hs : Sound h) (e : DispatchEvent) : Sound (h.step e) where
  bounded := hs.bounded.step e
  marked := hs.marked.step e
  order := by
    unfold History.step
    rw [hs.order]
    cases e with
    | submit sender payload weight admitted =>
      simp only [NamespaceQueue.step, NamespaceQueue.observes, List.append_nil, List.append_assoc]
      rw [← h.queue.waiting_submit]
    | submitLinkFact fact =>
      simp only [NamespaceQueue.step, NamespaceQueue.observes, List.append_nil, List.append_assoc]
      rw [← h.queue.waiting_submitLinkFact]
    | next =>
      simp only [NamespaceQueue.step, NamespaceQueue.observes, List.append_nil]
      rw [h.queue.waiting_next]
    | dispatch =>
      simp only [NamespaceQueue.step, List.append_nil, List.append_assoc]
      rw [← h.queue.waiting_dispatch]
    | finish =>
      simp only [NamespaceQueue.step, NamespaceQueue.observes, List.append_nil]
      rw [h.queue.waiting_finish]
  losses := by
    intro l hl
    obtain ⟨more, hmore⟩ := step_entered h e
    rw [hmore, List.length_append]
    rcases List.mem_append.mp hl with hl | hl
    · have := hs.losses l hl
      omega
    · rw [Option.mem_toList, Option.map_eq_some_iff] at hl
      obtain ⟨peer, -, rfl⟩ := hl
      exact Nat.le_add_right _ _

lemma sound_run (events : List DispatchEvent) : Sound (History.run events) := by
  induction events using List.reverseRecOn with
  | nil => exact sound_start
  | append_singleton events e ih =>
    rw [History.run_concat]
    exact ih.step e

/-- **One loss.** It is told after everything that concerns its peer exactly when no `Dropped` of
the peer waits with such an item behind it. -/
lemma told_step_iff {h : History} (hs : Sound h) {e : DispatchEvent} {peer : Did}
    (hloses : h.queue.loses e = some peer) :
    Told (h.step e).entered peer h.entered.length ↔ h.queue.Fresh peer := by
  have hentered : (h.step e).entered =
      h.entered ++ (h.queue.tellDropped peer).queue.drop h.queue.queue.length := by
    have hstep := NamespaceQueue.step_of_loses hloses
    unfold History.step
    cases e with
    | submit sender payload weight admitted =>
      simp only
      rw [hstep]
    | submitLinkFact fact =>
      simp only
      rw [hstep]
    | next => cases hloses
    | dispatch => cases hloses
    | finish => cases hloses
  rw [hentered]
  by_cases hp : peer ∈ h.queue.held.dropped
  · rw [NamespaceQueue.tellDropped_of_mem hp, List.drop_length, List.append_nil]
    have hmem := (hs.marked.marks peer).mp hp
    have honce := hs.marked.once peer
    -- the waiting items around the one `Dropped` of the peer
    obtain ⟨d, behind, hdrop⟩ : ∃ d behind,
        h.queue.waiting.dropWhile (· ≠ .fact (.dropped peer)) = d :: behind := by
      cases hd : h.queue.waiting.dropWhile (· ≠ .fact (.dropped peer)) with
      | nil =>
        have := List.dropWhile_eq_nil_iff.mp hd _ hmem
        simp at this
      | cons d behind => exact ⟨d, behind, rfl⟩
    have hd : d = .fact (.dropped peer) := by
      have := List.head?_dropWhile_not (fun item : Queued => decide (item ≠ .fact (.dropped peer)))
        h.queue.waiting
      rw [hdrop] at this
      simpa using this
    have hsplit : h.queue.waiting =
        h.queue.waiting.takeWhile (· ≠ .fact (.dropped peer)) ++
          .fact (.dropped peer) :: behind := by
      have := List.takeWhile_append_dropWhile (p := fun item => decide (item ≠ .fact (.dropped peer)))
        (l := h.queue.waiting)
      rw [hdrop, hd] at this
      exact this.symm
    have hbehind : .fact (.dropped peer) ∉ behind := by
      intro hmem
      have := List.count_pos_iff.mpr hmem
      rw [hsplit, List.count_append, List.count_cons_self] at honce
      omega
    have hfresh : h.queue.Fresh peer ↔ ∀ item ∈ behind, item.concerns peer = false := by
      unfold NamespaceQueue.Fresh NamespaceQueue.behindDropped
      rw [hdrop, List.tail_cons]
      exact ⟨fun hf => hf hp, fun hf _ => hf⟩
    rw [hfresh, hs.order, hsplit]
    exact told_iff_behind hbehind
  · have hnew : (h.queue.tellDropped peer).queue.drop h.queue.queue.length =
        [.fact (.dropped peer)] := by
      rw [NamespaceQueue.tellDropped_of_notMem hp]
      simp only [NamespaceQueue.send, List.drop_left]
    rw [hnew]
    refine iff_of_true ⟨h.entered.length, ?_, fun i item hi _ _ => hi⟩ fun hc => absurd hc hp
    rw [List.getElem?_append_right (le_refl _), Nat.sub_self, List.getElem?_cons_zero]

/-- The condition is checked at each event of a run. -/
lemma tellsAll_of_take {events : List DispatchEvent}
    (h : ∀ i : Fin events.length, (History.run (events.take i)).queue.TellsAll events[i]) :
    ∀ before e after, events = before ++ e :: after →
      (History.run before).queue.TellsAll e := by
  rintro before e after rfl
  have hlt : before.length < (before ++ e :: after).length := by simp
  simpa using h ⟨before.length, hlt⟩

/-- In a run whose losses are all told when they happen, every loss stays told. -/
lemma told_run {events : List DispatchEvent}
    (htells : ∀ before e after, events = before ++ e :: after →
      (History.run before).queue.TellsAll e) :
    ∀ l ∈ (History.run events).losses, Told (History.run events).entered l.1 l.2 := by
  induction events using List.reverseRecOn with
  | nil => exact fun l hl => by cases hl
  | append_singleton events e ih =>
    intro l hl
    have hprev := ih fun before e' after heq => htells before e' (after ++ [e]) (by rw [heq]; simp)
    have hs := sound_run events
    rw [History.run_concat] at hl ⊢
    rcases List.mem_append.mp hl with hl | hl
    · obtain ⟨more, hmore⟩ := step_entered (History.run events) e
      rw [hmore]
      exact (hprev l hl).mono (hs.losses l hl)
    · rw [Option.mem_toList, Option.map_eq_some_iff] at hl
      obtain ⟨peer, hloses, rfl⟩ := hl
      exact (told_step_iff hs hloses).mpr (htells events e [] rfl peer hloses)

/-- **A namespace's queue.** In every run the queue is bounded by count and by bytes, the protocol
observes the items in the order they entered, and at most one `Dropped` waits per peer. A loss is
told, when it happens, after everything that concerns its peer exactly when no `Dropped` of the
peer waits with such an item behind it; so in a run whose losses all meet that condition every
loss is told. -/
theorem namespace_queue_losses (events : List DispatchEvent) :
    let h := History.run events
    (h.queue.holding.countP Queued.isEnvelope ≤ namespaceQueueCapacity ∧
      ((h.queue.holding.map Queued.weight).sum ≤ namespaceQueueWeight ∨
        ∃ item ∈ h.queue.holding, item.weight = (h.queue.holding.map Queued.weight).sum)) ∧
    h.entered = h.observed ++ h.queue.waiting ∧
    (∀ peer, h.queue.queue.count (.fact (.dropped peer)) ≤ 1) ∧
    (∀ before e after peer, events = before ++ e :: after →
      (History.run before).queue.loses e = some peer →
      (Told (History.run (before ++ [e])).entered peer (History.run before).entered.length ↔
        (History.run before).queue.Fresh peer)) ∧
    ((∀ before e after, events = before ++ e :: after →
        (History.run before).queue.TellsAll e) →
      ∀ l ∈ h.losses, Told h.entered l.1 l.2) := by
  intro h
  have hs : Sound h := sound_run events
  refine ⟨⟨?_, ?_⟩, hs.order, fun peer => ?_, fun before e after peer _ hloses => ?_, told_run⟩
  · rw [← hs.bounded.envelopes]
    exact hs.bounded.capacity
  · rw [← hs.bounded.weight]
    exact hs.bounded.bytes
  · refine le_trans ?_ (hs.marked.once peer)
    unfold NamespaceQueue.waiting
    split
    · exact List.count_le_count_cons
    · exact le_refl _
  · rw [History.run_concat]
    exact told_step_iff (sound_run before) hloses

/-- Two envelopes of one peer and one of another are lost behind a large one; the second loss of the
first peer finds its `Dropped` last among what concerns it. -/
def toldLosses : List DispatchEvent :=
  [.submit 7 [] namespaceQueueWeight true, .submit 7 [] 1 true, .submit 8 [] 1 true,
    .submit 7 [] 2 true, .next, .dispatch, .finish, .submit 8 [] 3 true, .next, .dispatch, .finish]

theorem namespace_queue_losses_told :
    (History.run toldLosses).losses = [(7, 1), (8, 2), (7, 3)] ∧
      ∀ l ∈ (History.run toldLosses).losses, Told (History.run toldLosses).entered l.1 l.2 :=
  ⟨by decide +kernel, (namespace_queue_losses toldLosses).2.2.2.2
    (tellsAll_of_take (by decide +kernel))⟩

/-- Two envelopes of one peer are lost while its first `Dropped` waits, and an envelope of the peer
enters between the two losses: the second loss is never told. -/
def coalescedLoss : List DispatchEvent :=
  [.submit 7 [] namespaceQueueWeight true, .submit 7 [] 1 true, .next, .dispatch, .finish,
    .submit 7 [] namespaceQueueWeight true, .submit 7 [] 1 true, .next, .dispatch, .finish,
    .next, .dispatch, .finish]

theorem coalesced_loss_untold :
    (History.run coalescedLoss).observed = (History.run coalescedLoss).entered ∧
      ¬ ∀ l ∈ (History.run coalescedLoss).losses,
        Told (History.run coalescedLoss).entered l.1 l.2 := by
  have hentered : (History.run coalescedLoss).entered =
      [.envelope 7 [] namespaceQueueWeight, .fact (.dropped 7),
        .envelope 7 [] namespaceQueueWeight] := by decide +kernel
  have hlosses : (History.run coalescedLoss).losses = [(7, 1), (7, 3)] := by decide +kernel
  refine ⟨by decide +kernel, fun h => ?_⟩
  obtain ⟨j, hj, hall⟩ := h (7, 3) (by rw [hlosses]; simp)
  rw [hentered] at hj hall
  have hlt := hall 2 _ (by decide) rfl rfl
  rcases j with _ | _ | _ | j
  · omega
  · omega
  · cases hj
  · cases hj

end Rings.Dispatch
