import Rings.OutboundFairness

/-!
The outbound lanes over whole runs: order, bound, conservation and fairness.

Slots are told apart by a token that wraps at `2 ^ 64`. A run in which a token comes around while
an older slot still holds it loses a transfer; every other run keeps the lanes' contract.
-/

namespace Rings.Outbound

open scoped List

namespace OutboundWorker

lemma run_append (window : ℕ) (pre steps : List WorkerStep) :
    run window (pre ++ steps) = steps.foldl step (run window pre) := List.foldl_append

/-- No token was issued again in a run while a slot still held it. -/
def NoReissue (window : ℕ) (steps : List WorkerStep) : Prop :=
  ∀ pre, pre <+: steps → (run window pre).Distinct

lemma lawful_new (window : ℕ) : (new window).Lawful where
  lanes := fun _ => .empty window
  conserved := rfl
  logged := by simp [new]
  awaited := by simp [new, TransferQueues.withWindow, TransferLane.awaiting, TransferLane.empty]
  settling := by simp [new]
  keys := List.nodup_nil
  oneInFlight := List.nodup_nil

lemma run_lawful {window : ℕ} {steps : List WorkerStep} (h : NoReissue window steps) :
    (run window steps).Lawful := by
  induction steps using List.reverseRecOn with
  | nil => exact lawful_new window
  | append_singleton steps op ih =>
    rw [run_append]
    refine (ih fun pre hpre => h pre (hpre.trans (List.prefix_append _ _))).step ?_ op
    exact h steps (List.prefix_append _ _)

lemma window_step (s : OutboundWorker) (op : WorkerStep) :
    (s.step op).ready.window = s.ready.window := by
  cases op with
  | push c frames => rfl
  | pop credited =>
    simp only [step, pop]
    split
    · rfl
    · split
      · rfl
      · rename_i hp
        obtain ⟨-, lane', -, rfl⟩ := TransferQueues.pop_some hp
        rfl
  | admitFrame delivery =>
    simp only [step, admitFrame]
    split
    · rfl
    · split
      · rfl
      · exact TransferQueues.window_advanceFairness _ _
  | finish =>
    simp only [step, finish]
    split <;> rfl
  | fail =>
    simp only [step, fail]
    split
    · rfl
    · exact TransferQueues.window_advanceFairness _ _
  | delivered index =>
    simp only [step, delivered]
    split
    · rfl
    · split
      · rfl
      · rename_i hw
        obtain ⟨-, lane', -, rfl⟩ := TransferQueues.takeWaiting_some hw
        rfl
  | terminated index =>
    simp only [step, terminated]
    split
    · rfl
    · split
      · rfl
      · rename_i hw
        obtain ⟨-, lane', -, rfl⟩ := TransferQueues.takeWaiting_some hw
        rfl
  | cancel p => rfl
  | shutdown => rfl

lemma window_run (window : ℕ) (steps : List WorkerStep) :
    (run window steps).ready.window = window := by
  induction steps using List.reverseRecOn with
  | nil => rfl
  | append_singleton steps op ih =>
    rw [run_append, List.foldl_cons, List.foldl_nil, window_step, ih]

structure KeepsLanes (window : ℕ) (s : OutboundWorker) : Prop where
  bound : ∀ c, (s.ready.lanes c).slots.length ≤ window
  /-- A transfer admits its first frame after every transfer that did so before was pushed. -/
  pushOrder : ∀ c l₁ b l₂, s.log c = l₁ ++ b :: l₂ → b ∉ l₁ → ∀ a ∈ l₁, a < b
  /-- Between two frames of a transfer its class admits none of another. -/
  contiguous : ∀ c l₁ a l₂ l₃, s.log c = l₁ ++ a :: (l₂ ++ a :: l₃) → ∀ b ∈ l₂, b = a
  oneInFlight : (s.deliveries.map (·.id)).Nodup
  /-- No transfer is handed back twice, -/
  atMostOnce : (s.handedBack.map (·.id)).Nodup
  /-- and at the latest a shutdown hands each back. -/
  handsBack : s.shutdown.handedBack.map (·.id) ~ List.range s.nextId

lemma firsts_ascend {log : List ℕ} (h : log.Pairwise (· ≤ ·)) {l₁ l₂ : List ℕ} {b : ℕ}
    (hlog : log = l₁ ++ b :: l₂) (hb : b ∉ l₁) : ∀ a ∈ l₁, a < b := by
  intro a ha
  rw [hlog, List.pairwise_append] at h
  have hle := h.2.2 a ha b List.mem_cons_self
  refine lt_of_le_of_ne hle ?_
  rintro rfl
  exact hb ha

lemma rows_contiguous {log : List ℕ} (h : log.Pairwise (· ≤ ·)) {l₁ l₂ l₃ : List ℕ} {a : ℕ}
    (hlog : log = l₁ ++ a :: (l₂ ++ a :: l₃)) : ∀ b ∈ l₂, b = a := by
  intro b hb
  rw [hlog] at h
  have hrow := List.pairwise_cons.1 (List.pairwise_append.1 h).2.1
  refine le_antisymm ?_ (hrow.1 b (List.mem_append_left _ hb))
  exact (List.pairwise_append.1 hrow.2).2.2 b hb a List.mem_cons_self

lemma Lawful.keepsLanes {s : OutboundWorker} (h : s.Lawful) : s.KeepsLanes s.ready.window where
  bound := fun c => (h.lanes c).bound
  pushOrder := fun c _ _ _ hlog hb => firsts_ascend (h.lanes c).sorted hlog hb
  contiguous := fun c _ _ _ _ hlog => rows_contiguous (h.lanes c).sorted hlog
  oneInFlight := h.oneInFlight
  atMostOnce := by
    have hnodup := h.nodup
    exact Multiset.coe_nodup.1 (Multiset.nodup_add.1 hnodup).2.1
  handsBack := by
    have hshutdown := h.shutdown.conserved
    have hempty : (classes.flatMap fun c => (s.shutdown.ready.lanes c).ids) = [] := by
      simp [OutboundWorker.shutdown, TransferQueues.drainTransfers, TransferLane.drainTransfers,
        TransferLane.ids, TransferLane.items]
    rw [ids, hempty] at hshutdown
    refine Multiset.coe_eq_coe.1 (Eq.trans ?_ hshutdown)
    simp [OutboundWorker.shutdown]

/-- While no token is reissued, the lanes keep their contract in every state of a run, and any
stretch of the run charges its turns fairly. -/
theorem run_keepsLanes (window : ℕ) (steps : List WorkerStep) (h : NoReissue window steps) :
    (run window steps).KeepsLanes window ∧
      ∀ pre stretch, steps = pre ++ stretch →
        ∃ turns, (run window steps).turns = (run window pre).turns ++ turns ∧
          ServesFairly (run window pre) stretch turns := by
  constructor
  · have hkeeps := (run_lawful h).keepsLanes
    rwa [window_run] at hkeeps
  · rintro pre stretch rfl
    rw [run_append]
    exact exists_servesFairly _ _

/-- Two transfers in turn, each handed back. -/
theorem run_keepsLanes_two :
    let steps := [.push .storage 1, .push .storage 1, .pop fun _ => true, .admitFrame 0,
      .pop fun _ => true, .terminated 0, .fail]
    (run 1 steps).KeepsLanes 1 ∧
      ∀ pre stretch, steps = pre ++ stretch →
        ∃ turns, (run 1 steps).turns = (run 1 pre).turns ++ turns ∧
          ServesFairly (run 1 pre) stretch turns := by
  refine run_keepsLanes 1 _ fun pre hpre => ?_
  rw [← List.mem_inits] at hpre
  have hall : ∀ pre ∈ List.inits [WorkerStep.push .storage 1, .push .storage 1,
      .pop fun _ => true, .admitFrame 0, .pop fun _ => true, .terminated 0, .fail],
      ∀ c ∈ classes, (((run 1 pre).ready.lanes c).slots.map Prod.fst).Nodup := by
    decide +kernel
  exact fun c => hall pre hpre c (mem_classes c)

/-! ### When no token comes around -/

/-- The tokens of a lane's slots were issued one after the other, and tokens and backlog together
are no more than the transfers pushed. -/
structure Issued (pushed : ℕ) (lane : TransferLane QueuedTransfer) : Prop where
  ascending : (lane.slots.map Prod.fst).Pairwise (· < ·)
  below : ∀ token ∈ lane.slots.map Prod.fst, token < lane.nextSlot
  total : lane.nextSlot + lane.queued.length ≤ pushed

namespace Issued

variable {pushed window : ℕ} {lane lane' : TransferLane QueuedTransfer}

lemma mono (h : Issued pushed lane) {pushed' : ℕ} (hle : pushed ≤ pushed') :
    Issued pushed' lane := ⟨h.ascending, h.below, h.total.trans hle⟩

/-- Slots are changed or released and transfers leave the backlog. -/
lemma shrink (h : Issued pushed lane)
    (htokens : lane'.slots.map Prod.fst <+ lane.slots.map Prod.fst)
    (hnext : lane'.nextSlot = lane.nextSlot) (hqueued : lane'.queued.length ≤ lane.queued.length) :
    Issued pushed lane' where
  ascending := h.ascending.sublist htokens
  below := fun token ht => hnext ▸ h.below token (htokens.subset ht)
  total := by
    have htotal := h.total
    omega

lemma refill (h : Issued pushed lane) (hpushed : pushed < 2 ^ 64) :
    Issued pushed (lane.refill window) := by
  obtain ⟨slots, queued, nextSlot⟩ := lane
  unfold TransferLane.refill
  simp only
  induction queued generalizing slots nextSlot with
  | nil => exact h
  | cons item queued ih =>
    obtain ⟨hascending, hbelow, htotal⟩ := h
    simp only [List.length_cons] at hascending hbelow htotal
    unfold TransferLane.refillFrom
    split
    · refine ih _ _ ?_
      rw [Nat.mod_eq_of_lt (by omega)]
      constructor
      · simp only [List.map_append, List.map_cons, List.map_nil]
        refine List.pairwise_append.2 ⟨hascending, List.pairwise_singleton _ _, ?_⟩
        rintro token ht _ (_ | ⟨_, ⟨⟩⟩)
        exact hbelow token ht
      · intro token ht
        simp only [List.map_append, List.map_cons, List.map_nil, List.mem_append,
          List.mem_singleton] at ht
        rcases ht with ht | ht
        · exact Nat.lt_succ_of_lt (hbelow token ht)
        · exact ht ▸ Nat.lt_succ_self _
      · simp only []
        omega
    · exact ⟨hascending, hbelow, htotal⟩

lemma nodup (h : Issued pushed lane) : (lane.slots.map Prod.fst).Nodup :=
  h.ascending.imp Nat.ne_of_lt

end Issued

lemma map_fst_resumeSlot (slot : ℕ) (next : SlotState QueuedTransfer)
    (slots : List (ℕ × SlotState QueuedTransfer)) :
    (TransferLane.resumeSlot slot next slots).map Prod.fst = slots.map Prod.fst := by
  induction slots with
  | nil => rfl
  | cons x slots ih =>
    obtain ⟨token, state⟩ := x
    unfold TransferLane.resumeSlot
    split
    · cases state <;> rfl
    · rw [List.map_cons, ih, List.map_cons]

/-- Every lane of the worker after a step, below as many tokens as there are transfers. -/
def TokensIssued (s : OutboundWorker) : Prop := ∀ c, Issued s.nextId (s.ready.lanes c)

/-- One lane's slots are changed or released. -/
lemma TokensIssued.setLane {s : OutboundWorker} (h : s.TokensIssued) {c : TransferClass}
    {lane : TransferLane QueuedTransfer} (hlane : Issued s.nextId lane) (d : TransferClass) :
    Issued s.nextId ((s.ready.setLane c lane).lanes d) :=
  (forall_setLane (P := fun _ lane => Issued s.nextId lane)).2 ⟨hlane, fun d _ => h d⟩ d

lemma Issued.finish {pushed window slot : ℕ} {lane : TransferLane QueuedTransfer}
    (h : Issued pushed lane) (hpushed : pushed < 2 ^ 64) :
    Issued pushed (lane.finish slot window) := by
  refine Issued.refill ?_ hpushed
  exact h.shrink (List.filter_sublist.map _) rfl le_rfl

lemma Issued.takeWaiting {pushed delivery : ℕ} {lane lane' : TransferLane QueuedTransfer}
    {taken : ℕ × QueuedTransfer} (h : Issued pushed lane)
    (ht : lane.takeWaiting delivery = some (taken, lane')) : Issued pushed lane' := by
  obtain ⟨l₁, r, l₂, hslots, rfl⟩ := TransferLane.takeWaiting_some ht
  refine h.shrink ?_ rfl le_rfl
  rw [hslots]
  simp

lemma nextId_le_step (s : OutboundWorker) (op : WorkerStep) : s.nextId ≤ (s.step op).nextId := by
  cases op <;> simp only [step, enqueueTransfer, pop, admitFrame, finish, fail, delivered,
    terminated, cancel, shutdown]
  case push => exact Nat.le_succ _
  all_goals
    repeat' split
    all_goals exact le_rfl

lemma TokensIssued.step {s : OutboundWorker} (h : s.TokensIssued) (op : WorkerStep)
    (hpushed : (s.step op).nextId < 2 ^ 64) : (s.step op).TokensIssued := by
  have hlt := (nextId_le_step s op).trans_lt hpushed
  cases op with
  | push c frames =>
    simp only [OutboundWorker.step, enqueueTransfer] at hpushed ⊢
    refine (forall_setLane (P := fun _ lane => Issued (s.nextId + 1) lane)).2
      ⟨Issued.refill ?_ hpushed, fun d _ => (h d).mono (Nat.le_succ _)⟩
    obtain ⟨hascending, hbelow, htotal⟩ := h c
    refine ⟨hascending, hbelow, ?_⟩
    simp only [List.length_append, List.length_singleton]
    omega
  | pop credited =>
    simp only [OutboundWorker.step, pop]
    split
    · exact h
    · split
      · exact h
      · rename_i t ready hp
        obtain ⟨-, lane', ht, rfl⟩ := TransferQueues.pop_some hp
        refine h.setLane ?_
        obtain ⟨l₁, fresh, l₂, hslots, rfl, -⟩ := TransferLane.takeRunnable_some ht
        refine (h t.class_).shrink ?_ rfl le_rfl
        rw [hslots]
        simp
  | admitFrame delivery =>
    simp only [OutboundWorker.step, admitFrame]
    split
    · exact h
    · rename_i t ht
      split
      · exact h
      · intro d
        simp only [TransferQueues.waitForDelivery, TransferQueues.recordFrameAdmitted,
          TransferQueues.lanes_setLane, TransferQueues.lanes_advanceFairness]
        refine h.setLane ?_ d
        refine (h t.class_).shrink ?_ rfl le_rfl
        rw [TransferLane.waitForDelivery, map_fst_resumeSlot]
  | finish =>
    simp only [OutboundWorker.step, finish]
    split
    · exact h
    · exact h.setLane ((h _).finish hlt)
  | fail =>
    simp only [OutboundWorker.step, fail]
    split
    · exact h
    · rename_i t ht
      intro d
      simp only [TransferQueues.failAttempt, TransferQueues.finishTransfer,
        TransferQueues.lanes_setLane, TransferQueues.lanes_advanceFairness]
      exact h.setLane ((h _).finish hlt) d
  | delivered index =>
    simp only [OutboundWorker.step, delivered]
    split
    · exact h
    · split
      · exact h
      · rename_i t ready hw
        obtain ⟨hclass, lane', ht, rfl⟩ := TransferQueues.takeWaiting_some hw
        intro d
        simp only [TransferQueues.makeRunnable, hclass, TransferQueues.lanes_setLane,
          Function.update_self, TransferQueues.setLane_setLane]
        have hlane : Issued s.nextId (lane'.makeRunnable t.slot t.item) := by
          refine ((h _).takeWaiting ht).shrink ?_ rfl le_rfl
          rw [TransferLane.makeRunnable, map_fst_resumeSlot]
        exact h.setLane hlane d
  | terminated index =>
    simp only [OutboundWorker.step, terminated]
    split
    · exact h
    · split
      · exact h
      · rename_i t ready hw
        obtain ⟨hclass, lane', ht, rfl⟩ := TransferQueues.takeWaiting_some hw
        intro d
        simp only [TransferQueues.finishTransfer, hclass, TransferQueues.lanes_setLane,
          Function.update_self, TransferQueues.setLane_setLane]
        exact h.setLane (((h _).takeWaiting ht).finish hlt) d
  | cancel p =>
    intro c
    refine Issued.refill ((h c).shrink ?_ rfl ?_) hlt
    · exact List.filter_sublist.map _
    · exact List.length_filter_le _ _
  | shutdown =>
    intro c
    exact (h c).shrink (List.nil_sublist _) rfl (Nat.zero_le _)

/-- No token comes around before `2 ^ 64` transfers. -/
theorem noReissue_of_lt (window : ℕ) (steps : List WorkerStep)
    (h : (run window steps).nextId < 2 ^ 64) : NoReissue window steps := by
  have hissued : ∀ pre, (run window pre).nextId < 2 ^ 64 → (run window pre).TokensIssued := by
    intro pre hpre
    induction pre using List.reverseRecOn with
    | nil =>
      intro c
      exact ⟨List.Pairwise.nil, by simp [run, new, TransferQueues.withWindow, TransferLane.empty],
        Nat.zero_le _⟩
    | append_singleton pre op ih =>
      rw [run_append] at hpre ⊢
      exact (ih ((nextId_le_step _ op).trans_lt hpre)).step op hpre
  rintro pre ⟨rest, rfl⟩ c
  refine (hissued pre ?_ c).nodup
  have hmono : ∀ (rest : List WorkerStep) (s : OutboundWorker),
      s.nextId ≤ (rest.foldl OutboundWorker.step s).nextId := by
    intro rest
    induction rest with
    | nil => exact fun s => le_rfl
    | cons op rest ih => exact fun s => (nextId_le_step s op).trans (ih _)
  rw [run_append] at h
  exact (hmono rest _).trans_lt h

/-- A transfer waits for its delivery in the slot of token 0. -/
def parkFirst : List WorkerStep :=
  [.push .application 1, .pop (· = .application), .admitFrame 0]

/-- Another passes through the lane, and its slot is free again. -/
def passBy : List WorkerStep :=
  [.push .application 1, .pop (· = .application), .admitFrame 1, .terminated 1]

/-- The slot of token 0 is held while the tokens 1 to 3 are issued. -/
theorem noReissue_of_lt_held :
    let steps := parkFirst ++ passBy ++ passBy ++ [.push .application 1]
    ((run 2 steps).ready.lanes .application).slots.map Prod.fst = [0, 3] ∧ NoReissue 2 steps :=
  ⟨by decide +kernel, noReissue_of_lt 2 _ (by decide +kernel)⟩

/-! ### A token that comes around -/

/-- The transfer after `2 ^ 64 - 1` others gets the token the first still holds, and ends. -/
def reissuingRun : List WorkerStep :=
  parkFirst ++ (List.replicate (2 ^ 64 - 1) passBy).flatten ++
    [.push .application 1, .pop (· = .application), .finish]

def parked (nextSlot : ℕ) : TransferQueues QueuedTransfer where
  lanes := Function.update (fun _ => .empty) .application
    ⟨[(0, .waiting 0 .final ⟨0, 0⟩)], [], nextSlot⟩
  lowerCursor := 0
  consecutiveControl := 0
  window := 2

structure Parked (nextSlot : ℕ) (s : OutboundWorker) : Prop where
  ready : s.ready = parked nextSlot
  active : s.active = none
  deliveries : s.deliveries = [⟨.application, 0, 0⟩]
  fresh : 0 < s.nextId
  kept : 0 ∉ s.handedBack.map (·.id)

lemma parked_parkFirst : Parked 1 (run 2 parkFirst) where
  ready := by
    refine congrArg (TransferQueues.mk · 0 0 2) (funext fun c => ?_)
    cases c <;> rfl
  active := rfl
  deliveries := rfl
  fresh := by decide
  kept := by decide

/-- A lane whose oldest transfer waits, with a later one in the slot `nextSlot`. -/
def behind (state : SlotState QueuedTransfer) (nextSlot : ℕ) : TransferQueues QueuedTransfer :=
  (parked nextSlot).setLane .application
    ⟨[(0, .waiting 0 .final ⟨0, 0⟩), (nextSlot, state)], [], (nextSlot + 1) % 2 ^ 64⟩

lemma push_parked (nextSlot id : ℕ) : (parked nextSlot).push .application ⟨id, 1⟩ =
    behind (.runnable ⟨id, 1⟩ true) nextSlot := by
  simp [TransferQueues.push, parked, behind, TransferLane.enqueue, TransferLane.refill,
    TransferLane.refillFrom]

lemma pop_behind (nextSlot id : ℕ) : (behind (.runnable ⟨id, 1⟩ true) nextSlot).pop
    (· = .application) = some (⟨.application, nextSlot, ⟨id, 1⟩⟩, behind .sending nextSlot) := by
  simp [TransferQueues.pop, TransferQueues.selected, TransferQueues.nextLowerClass, behind, parked,
    TransferQueues.setLane, lowerClasses, TransferLane.isRunnable, TransferLane.runnablePosition,
    TransferLane.runnablePositionFrom, SlotState.holdsTheWire, TransferLane.takeRunnable]

lemma waitForDelivery_behind {nextSlot : ℕ} (h : nextSlot ≠ 0) (id : ℕ) :
    ((behind .sending nextSlot).recordFrameAdmitted .application).waitForDelivery 1 .final
      ⟨.application, nextSlot, ⟨id, 0⟩⟩ = behind (.waiting 1 .final ⟨id, 0⟩) nextSlot := by
  simp [TransferQueues.waitForDelivery, TransferQueues.recordFrameAdmitted,
    TransferQueues.advanceFairness, behind, parked, TransferQueues.setLane, lowerClasses,
    TransferLane.waitForDelivery, TransferLane.resumeSlot, Ne.symm h]
  rfl

lemma takeWaiting_behind (nextSlot id : ℕ) :
    (behind (.waiting 1 .final ⟨id, 0⟩) nextSlot).takeWaiting .application 1 =
      some (⟨.application, nextSlot, ⟨id, 0⟩⟩, behind .sending nextSlot) := by
  simp [TransferQueues.takeWaiting, behind, parked, TransferQueues.setLane,
    TransferLane.takeWaiting, TransferLane.takeWaitingFrom, SlotState.waitsOn]

lemma finishTransfer_behind {nextSlot : ℕ} (h : nextSlot ≠ 0) (id : ℕ) :
    (behind .sending nextSlot).finishTransfer ⟨.application, nextSlot, ⟨id, 0⟩⟩ =
      parked ((nextSlot + 1) % 2 ^ 64) := by
  simp [TransferQueues.finishTransfer, behind, parked, TransferQueues.setLane,
    TransferLane.finish, TransferLane.refill, TransferLane.refillFrom, Ne.symm h]

lemma Parked.passBy {nextSlot : ℕ} {s : OutboundWorker} (h : Parked nextSlot s)
    (hslot : nextSlot ≠ 0) : Parked ((nextSlot + 1) % 2 ^ 64) (passBy.foldl step s) := by
  obtain ⟨ready, active, nextId, deliveries, admitted, turns, handedBack⟩ := s
  obtain ⟨rfl, rfl, rfl, hfresh, hkept⟩ := h
  simp only at hfresh hkept
  have hremainder : QueuedTransfer.remainder ⟨nextId, 0⟩ = .final := rfl
  simp only [OutboundWorker.passBy, List.foldl_cons, List.foldl_nil, step, enqueueTransfer,
    push_parked, pop, pop_behind, admitFrame, List.any_cons, List.any_nil, Nat.reduceSub,
    hremainder, waitForDelivery_behind hslot]
  simp [terminated, takeWaiting_behind, finishTransfer_behind hslot]
  constructor
  · rfl
  · rfl
  · rfl
  · exact Nat.succ_pos _
  · simpa [hfresh.ne] using hkept

lemma parked_passBy (k : ℕ) (hk : k < 2 ^ 64) :
    Parked ((k + 1) % 2 ^ 64)
      ((List.replicate k passBy).flatten.foldl step (run 2 parkFirst)) := by
  induction k with
  | zero => exact parked_parkFirst
  | succ k ih =>
    have hparked := ih (by omega)
    have hmod : (k + 1) % 2 ^ 64 = k + 1 := Nat.mod_eq_of_lt hk
    rw [hmod] at hparked
    rw [List.replicate_succ', List.flatten_append, List.foldl_append, List.flatten_singleton]
    exact hparked.passBy (by omega)

/-- Both slots of the token go. -/
lemma drainTransfers_reissued (id : ℕ) :
    ((behind .sending 0).finishTransfer ⟨.application, 0, ⟨id, 1⟩⟩).drainTransfers.1 = [] := by
  simp [TransferQueues.finishTransfer, TransferQueues.drainTransfers, behind, parked,
    TransferQueues.setLane, classes, lowerClasses, TransferLane.finish, TransferLane.refill,
    TransferLane.refillFrom, TransferLane.drainTransfers, TransferLane.empty]

/-- The transfer that holds the token is dropped with the one that got it again. -/
theorem reissuingRun_loses : ¬ (run 2 reissuingRun).KeepsLanes 2 := by
  intro h
  have hparked := parked_passBy (2 ^ 64 - 1) (by omega)
  rw [show (2 ^ 64 - 1 + 1) % 2 ^ 64 = 0 by omega] at hparked
  have hback := h.handsBack
  rw [reissuingRun, run_append, run_append] at hback
  generalize (List.replicate (2 ^ 64 - 1) passBy).flatten.foldl step (run 2 parkFirst) = s
    at hparked hback
  obtain ⟨ready, active, nextId, deliveries, admitted, turns, handedBack⟩ := s
  obtain ⟨rfl, rfl, rfl, hfresh, hkept⟩ := hparked
  simp only at hfresh hkept
  simp only [List.foldl_cons, List.foldl_nil, step, enqueueTransfer, push_parked, pop,
    pop_behind, finish] at hback
  have hmem := hback.mem_iff.2 (List.mem_range.2 (Nat.succ_pos nextId))
  simp only [shutdown, drainTransfers_reissued, Option.map_none, Option.toList_none,
    List.append_nil, List.map_append, List.map_cons, List.map_nil, List.mem_append,
    List.mem_singleton] at hmem
  rcases hmem with hmem | hmem
  · exact hkept hmem
  · exact absurd hmem (Nat.ne_of_lt hfresh)

end OutboundWorker

end Rings.Outbound
