import Rings.OutboundQueue
import Rings.PerLane
import Mathlib.Tactic

/-!
Order and bound of one outbound lane.

The slots of a lane are first the transfers that sent a frame and then those that did not, in the
order of their pushes, and at most one of the first has frames left: the last that started.
-/

namespace Rings.Outbound

open scoped List

/-! ### What the operations of a lane do -/

namespace SlotState

variable {T : Type*}

def isFresh : SlotState T → Bool
  | runnable _ true => true
  | _ => false

/-- The transfer of a slot that has sent no frame. -/
def freshItem? : SlotState T → Option T
  | runnable item true => some item
  | _ => none

def startedItem? : SlotState T → Option T
  | runnable item false => some item
  | waiting _ _ item => some item
  | _ => none

@[simp] lemma item?_runnable (item : T) (fresh : Bool) : (runnable item fresh).item? = some item :=
  rfl

@[simp] lemma item?_sending : (sending : SlotState T).item? = none := rfl

@[simp] lemma item?_waiting (delivery : ℕ) (remainder : FrameRemainder) (item : T) :
    (waiting delivery remainder item).item? = some item := rfl

lemma item?_eq (state : SlotState T) :
    state.item? = (state.startedItem?).or state.freshItem? := by
  rcases state with ⟨item, _ | _⟩ | _ | ⟨d, r, item⟩ <;> rfl

end SlotState

namespace TransferLane

variable {T : Type*} {lane : TransferLane T} {l₁ l₂ slots : List (ℕ × SlotState T)}
  {window slot delivery : ℕ} {item : T}

/-- The transfers of a lane that have sent no frame, in the order they will start. -/
def unstarted (lane : TransferLane T) : List T :=
  lane.slots.filterMap (fun x => x.2.freshItem?) ++ lane.queued

def items (lane : TransferLane T) : List T :=
  lane.slots.filterMap (fun x => x.2.item?) ++ lane.queued

/-- A refill only adds fresh slots at the end, for the oldest queued transfers. -/
lemma refillFrom_spec (queued : List T) (nextSlot : ℕ) :
    ∃ new, (refillFrom window slots nextSlot queued).slots = slots ++ new ∧
      (∀ x ∈ new, ∃ item, x.2 = .runnable item true) ∧
      queued = new.filterMap (fun x => x.2.freshItem?) ++
        (refillFrom window slots nextSlot queued).queued ∧
      (slots.length ≤ window →
        (refillFrom window slots nextSlot queued).slots.length ≤ window) := by
  induction queued generalizing slots nextSlot with
  | nil => exact ⟨[], by simp [refillFrom]⟩
  | cons item queued ih =>
    unfold refillFrom
    split
    · rename_i hlt
      obtain ⟨new, hslots, hnew, hqueued, hbound⟩ :=
        @ih (slots ++ [(nextSlot, .runnable item true)]) ((nextSlot + 1) % 2 ^ 64)
      refine ⟨(nextSlot, .runnable item true) :: new, ?_, ?_, ?_, fun _ => ?_⟩
      · rw [hslots, List.append_assoc, List.singleton_append]
      · rintro x (_ | ⟨_, hx⟩)
        · exact ⟨item, rfl⟩
        · exact hnew x hx
      · rw [List.filterMap_cons]
        exact congrArg (item :: ·) hqueued
      · refine hbound ?_
        rw [List.length_append, List.length_singleton]
        omega
    · exact ⟨[], by simp⟩

lemma refill_spec (lane : TransferLane T) (window : ℕ) :
    ∃ new, (lane.refill window).slots = lane.slots ++ new ∧
      (∀ x ∈ new, ∃ item, x.2 = .runnable item true) ∧
      lane.queued = new.filterMap (fun x => x.2.freshItem?) ++ (lane.refill window).queued ∧
      (lane.slots.length ≤ window → (lane.refill window).slots.length ≤ window) :=
  refillFrom_spec lane.queued lane.nextSlot

lemma filterMap_item?_of_fresh {new : List (ℕ × SlotState T)}
    (hnew : ∀ x ∈ new, ∃ item, x.2 = .runnable item true) :
    new.filterMap (fun x => x.2.item?) = new.filterMap fun x => x.2.freshItem? := by
  refine List.filterMap_congr fun x hx => ?_
  obtain ⟨item, hx⟩ := hnew x hx
  rw [hx]
  rfl

@[simp] lemma unstarted_refill (lane : TransferLane T) (window : ℕ) :
    (lane.refill window).unstarted = lane.unstarted := by
  obtain ⟨new, hslots, -, hqueued, -⟩ := refill_spec lane window
  rw [unstarted, unstarted, hslots, hqueued, List.filterMap_append, List.append_assoc]

@[simp] lemma items_refill (lane : TransferLane T) (window : ℕ) :
    (lane.refill window).items = lane.items := by
  obtain ⟨new, hslots, hnew, hqueued, -⟩ := refill_spec lane window
  rw [items, items, hslots, hqueued, List.filterMap_append, filterMap_item?_of_fresh hnew,
    List.append_assoc]

/-- Where the scan stops: everything before the slot sent a frame or holds nothing back. -/
lemma runnablePositionFrom_some {wireHeld : Bool} {position : ℕ}
    (h : runnablePositionFrom wireHeld slots = some position) :
    ∃ l₁ slot item fresh l₂, slots = l₁ ++ (slot, .runnable item fresh) :: l₂ ∧
      position = l₁.length ∧
      (∀ x ∈ l₁, ∀ item, x.2 ≠ .runnable item false) ∧
      (fresh = true → wireHeld = false ∧ ∀ x ∈ l₁, x.2.holdsTheWire = false ∧ x.2.isFresh = false) := by
  induction slots generalizing wireHeld position with
  | nil => cases h
  | cons x slots ih =>
    obtain ⟨token, state⟩ := x
    rcases state with ⟨item, _ | _⟩ | _ | ⟨d, r, item⟩
    · obtain rfl : 0 = position := Option.some.inj h
      exact ⟨[], token, item, false, slots, rfl, rfl, by simp, by simp⟩
    · rw [runnablePositionFrom] at h
      split at h
      · rename_i hw
        obtain rfl : 0 = position := Option.some.inj h
        exact ⟨[], token, item, true, slots, rfl, rfl, by simp, by simpa using hw⟩
      · rename_i hw
        obtain ⟨k, hk, rfl⟩ := Option.map_eq_some_iff.1 h
        obtain ⟨l₁, slot, item', fresh, l₂, rfl, rfl, hbefore, hfresh⟩ := ih hk
        refine ⟨(token, .runnable item true) :: l₁, slot, item', fresh, l₂, rfl, rfl, ?_, ?_⟩
        · rintro x (_ | ⟨_, hx⟩)
          · simp
          · exact hbefore x hx
        · exact fun hf => absurd (hfresh hf).1 (by simpa using hw)
    all_goals
      obtain ⟨k, hk, rfl⟩ := Option.map_eq_some_iff.1 h
      obtain ⟨l₁, slot, item', fresh, l₂, rfl, rfl, hbefore, hfresh⟩ := ih hk
      refine ⟨_ :: l₁, slot, item', fresh, l₂, rfl, rfl, ?_, fun hf => ?_⟩
      · rintro x (_ | ⟨_, hx⟩)
        · simp
        · exact hbefore x hx
      · obtain ⟨hw, hl⟩ := hfresh hf
        rw [Bool.or_eq_false_iff] at hw
        refine ⟨hw.1, ?_⟩
        rintro x (_ | ⟨_, hx⟩)
        · exact ⟨hw.2, rfl⟩
        · exact hl x hx

/-- The transfer taken is the oldest that may admit a frame. -/
lemma takeRunnable_some {lane' : TransferLane T} (h : lane.takeRunnable = some ((slot, item), lane')) :
    ∃ l₁ fresh l₂, lane.slots = l₁ ++ (slot, .runnable item fresh) :: l₂ ∧
      lane' = { lane with slots := l₁ ++ (slot, .sending) :: l₂ } ∧
      (∀ x ∈ l₁, ∀ item, x.2 ≠ .runnable item false) ∧
      (fresh = true → ∀ x ∈ l₁, x.2.holdsTheWire = false ∧ x.2.isFresh = false) := by
  obtain ⟨position, hp, h⟩ := Option.bind_eq_some_iff.1 h
  obtain ⟨l₁, token, item', fresh, l₂, hslots, rfl, hbefore, hfresh⟩ := runnablePositionFrom_some hp
  have hget : lane.slots[l₁.length]? = some (token, .runnable item' fresh) := by simp [hslots]
  rw [hget] at h
  simp only [Option.some.injEq, Prod.mk.injEq] at h
  obtain ⟨⟨rfl, rfl⟩, rfl⟩ := h
  refine ⟨l₁, fresh, l₂, hslots, ?_, hbefore, fun hf => (hfresh hf).2⟩
  simp [hslots]

lemma tokens_ne (hnodup : ((l₁ ++ (slot, SlotState.sending (T := T)) :: l₂).map Prod.fst).Nodup) :
    ∀ x ∈ l₁ ++ l₂, x.1 ≠ slot := by
  rw [List.map_append, List.map_cons, List.nodup_middle, List.nodup_cons, ← List.map_append] at hnodup
  rintro x hx rfl
  exact hnodup.1 (List.mem_map.2 ⟨x, hx, rfl⟩)

lemma resumeSlot_append_cons (hne : ∀ x ∈ l₁, x.1 ≠ slot) (next : SlotState T) :
    resumeSlot slot next (l₁ ++ (slot, .sending) :: l₂) = l₁ ++ (slot, next) :: l₂ := by
  induction l₁ with
  | nil => simp [resumeSlot]
  | cons x l₁ ih =>
    simp only [List.cons_append, resumeSlot, if_neg (hne x (by simp))]
    rw [ih fun y hy => hne y (List.mem_cons_of_mem _ hy)]

lemma takeWaitingFrom_some {slots' : List (ℕ × SlotState T)}
    (h : takeWaitingFrom delivery slots = some ((slot, item), slots')) :
    ∃ l₁ r l₂, slots = l₁ ++ (slot, .waiting delivery r item) :: l₂ ∧
      slots' = l₁ ++ (slot, .sending) :: l₂ := by
  induction slots generalizing slots' with
  | nil => cases h
  | cons x slots ih =>
    obtain ⟨token, state⟩ := x
    rw [takeWaitingFrom] at h
    split at h
    · rename_i hw
      rcases state with ⟨it, f⟩ | _ | ⟨d, r, it⟩
      · cases hw
      · cases hw
      · simp only [SlotState.waitsOn, decide_eq_true_eq] at hw
        subst hw
        simp only [SlotState.item?, Option.map_some, Option.some.injEq, Prod.mk.injEq] at h
        obtain ⟨⟨rfl, rfl⟩, rfl⟩ := h
        exact ⟨[], r, slots, rfl, rfl⟩
    · obtain ⟨⟨⟨s, it⟩, rest⟩, hrest, heq⟩ := Option.map_eq_some_iff.1 h
      simp only [Prod.mk.injEq] at heq
      obtain ⟨⟨rfl, rfl⟩, rfl⟩ := heq
      obtain ⟨l₁, r, l₂, rfl, rfl⟩ := ih hrest
      exact ⟨(token, state) :: l₁, r, l₂, rfl, rfl⟩

lemma takeWaitingFrom_none (h : takeWaitingFrom delivery slots = none) :
    ∀ x ∈ slots, x.2.waitsOn delivery = false := by
  induction slots with
  | nil => simp
  | cons x slots ih =>
    obtain ⟨token, state⟩ := x
    rw [takeWaitingFrom] at h
    split at h
    · rename_i hw
      rcases state with ⟨it, f⟩ | _ | ⟨d, r, it⟩
      · cases hw
      · cases hw
      · simp at h
    · rename_i hw
      rw [Option.map_eq_none_iff] at h
      rintro y (_ | ⟨_, hy⟩)
      · simpa using hw
      · exact ih h y hy

lemma takeWaiting_some {lane' : TransferLane T}
    (h : lane.takeWaiting delivery = some ((slot, item), lane')) :
    ∃ l₁ r l₂, lane.slots = l₁ ++ (slot, .waiting delivery r item) :: l₂ ∧
      lane' = { lane with slots := l₁ ++ (slot, .sending) :: l₂ } := by
  obtain ⟨⟨⟨s, it⟩, slots'⟩, hslots', heq⟩ := Option.map_eq_some_iff.1 h
  simp only [Prod.mk.injEq] at heq
  obtain ⟨⟨rfl, rfl⟩, rfl⟩ := heq
  obtain ⟨l₁, r, l₂, hslots, rfl⟩ := takeWaitingFrom_some hslots'
  exact ⟨l₁, r, l₂, hslots, rfl⟩

lemma filter_append_cons {x : SlotState T} (hne : ∀ y ∈ l₁ ++ l₂, y.1 ≠ slot) :
    (l₁ ++ (slot, x) :: l₂).filter (fun entry => entry.1 ≠ slot) = l₁ ++ l₂ := by
  rw [List.filter_append, List.filter_cons_of_neg (by simp),
    List.filter_eq_self.2 fun y hy => by simpa using hne y (List.mem_append_left _ hy),
    List.filter_eq_self.2 fun y hy => by simpa using hne y (List.mem_append_right _ hy)]

end TransferLane

/-! ### The law of a lane -/

open TransferLane SlotState

/-- What a lane keeps, where `log` are the transfers its frames were admitted for and `held` is
the transfer the worker took from it, with its slot. -/
structure LaneLaw (window : ℕ) (log : List ℕ) (held : Option (ℕ × QueuedTransfer))
    (lane : TransferLane QueuedTransfer) : Prop where
  bound : lane.slots.length ≤ window
  heldSlot : ∀ h, held = some h → (h.1, .sending) ∈ lane.slots
  freshLast : lane.slots.Pairwise fun x y => x.2.isFresh = true → y.2.isFresh = true
  -- transfers start in the order of pushes, after every one that started
  ascending : lane.unstarted.Pairwise (·.id < ·.id)
  above : ∀ t ∈ lane.unstarted, (∀ y ∈ log, y < t.id) ∧ ∀ h, held = some h → h.2.id < t.id
  -- only the last that started has frames left
  started : ∀ x ∈ lane.slots, ∀ t, x.2.startedItem? = some t →
    t.id ∈ log ∧ (0 < t.frames → ∀ y ∈ log, y ≤ t.id)
  heldLast : ∀ h, held = some h → 0 < h.2.frames → (∀ y ∈ log, y ≤ h.2.id) ∧
    ∀ x ∈ lane.slots, ∀ t, x.2.startedItem? = some t → t.frames = 0
  remainder : ∀ x ∈ lane.slots, ∀ d r t, x.2 = .waiting d r t → r = t.remainder
  sorted : log.Pairwise (· ≤ ·)

namespace LaneLaw

variable {window : ℕ} {log : List ℕ} {held : Option (ℕ × QueuedTransfer)}
  {lane lane' : TransferLane QueuedTransfer} {l₁ l₂ : List (ℕ × SlotState QueuedTransfer)}
  {slot delivery : ℕ} {item : QueuedTransfer}

lemma empty (window : ℕ) : LaneLaw window [] none .empty where
  bound := Nat.zero_le _
  heldSlot := by simp
  freshLast := List.Pairwise.nil
  ascending := List.Pairwise.nil
  above := by simp [unstarted, TransferLane.empty]
  started := by simp [TransferLane.empty]
  heldLast := by simp
  remainder := by simp [TransferLane.empty]
  sorted := List.Pairwise.nil

lemma release (h : LaneLaw window log held lane) : LaneLaw window log none lane where
  bound := h.bound
  heldSlot := by simp
  freshLast := h.freshLast
  ascending := h.ascending
  above := fun t ht => ⟨(h.above t ht).1, by simp⟩
  started := h.started
  heldLast := by simp
  remainder := h.remainder
  sorted := h.sorted

lemma refill (h : LaneLaw window log held lane) : LaneLaw window log held (lane.refill window) := by
  obtain ⟨new, hslots, hnew, hqueued, hbound⟩ := refill_spec lane window
  have hstarted : ∀ x ∈ new, x.2.startedItem? = none := by
    intro x hx
    obtain ⟨t, hx⟩ := hnew x hx
    rw [hx]
    rfl
  constructor
  case bound => exact hbound h.bound
  case heldSlot =>
    intro k hk
    rw [hslots]
    exact List.mem_append_left _ (h.heldSlot k hk)
  case freshLast =>
    rw [hslots, List.pairwise_append]
    have hfresh : ∀ x ∈ new, x.2.isFresh = true := by
      intro x hx
      obtain ⟨t, hx⟩ := hnew x hx
      rw [hx]
      rfl
    exact ⟨h.freshLast, List.pairwise_of_forall_mem_list fun _ _ y hy _ => hfresh y hy,
      fun _ _ y hy _ => hfresh y hy⟩
  case ascending =>
    rw [unstarted_refill]
    exact h.ascending
  case above =>
    rw [unstarted_refill]
    exact h.above
  case started =>
    intro x hx t ht
    rw [hslots] at hx
    rcases List.mem_append.1 hx with hx | hx
    · exact h.started x hx t ht
    · rw [hstarted x hx] at ht
      cases ht
  case heldLast =>
    intro k hk hframes
    obtain ⟨hlog, hother⟩ := h.heldLast k hk hframes
    refine ⟨hlog, fun x hx t ht => ?_⟩
    rw [hslots] at hx
    rcases List.mem_append.1 hx with hx | hx
    · exact hother x hx t ht
    · rw [hstarted x hx] at ht
      cases ht
  case remainder =>
    intro x hx d r t hxt
    rw [hslots] at hx
    rcases List.mem_append.1 hx with hx | hx
    · exact h.remainder x hx d r t hxt
    · obtain ⟨t', ht'⟩ := hnew x hx
      rw [ht'] at hxt
      cases hxt
  case sorted => exact h.sorted

lemma enqueue (h : LaneLaw window log held lane) {t : QueuedTransfer}
    (hunstarted : ∀ u ∈ lane.unstarted, u.id < t.id) (hlog : ∀ y ∈ log, y < t.id)
    (hheld : ∀ k, held = some k → k.2.id < t.id) :
    LaneLaw window log held (lane.enqueue t window) := by
  refine LaneLaw.refill ?_
  have heq : unstarted { lane with queued := lane.queued ++ [t] } = lane.unstarted ++ [t] := by
    simp [unstarted]
  constructor
  case bound => exact h.bound
  case heldSlot => exact h.heldSlot
  case freshLast => exact h.freshLast
  case ascending =>
    rw [heq, List.pairwise_append]
    refine ⟨h.ascending, List.pairwise_singleton _ _, fun u hu v hv => ?_⟩
    rw [List.mem_singleton.1 hv]
    exact hunstarted u hu
  case above =>
    intro u hu
    rw [heq] at hu
    rcases List.mem_append.1 hu with hu | hu
    · exact h.above u hu
    · rw [List.mem_singleton.1 hu]
      exact ⟨hlog, hheld⟩
  case started => exact h.started
  case heldLast => exact h.heldLast
  case remainder => exact h.remainder
  case sorted => exact h.sorted

lemma unstarted_append_cons {queued : List QueuedTransfer} {nextSlot : ℕ}
    {s : SlotState QueuedTransfer} (hstate : s.freshItem? = none) :
    unstarted ⟨l₁ ++ (slot, s) :: l₂, queued, nextSlot⟩ =
      unstarted ⟨l₁ ++ l₂, queued, nextSlot⟩ := by
  simp [unstarted, hstate]

lemma id_ne_of_nodup {state : SlotState QueuedTransfer} {x : ℕ × SlotState QueuedTransfer}
    {t : QueuedTransfer} (hnodup : (lane.items.map (·.id)).Nodup)
    (hslots : lane.slots = l₁ ++ (slot, state) :: l₂) (hstate : state.item? = some item)
    (hx : x ∈ l₁ ++ l₂) (hxt : x.2.item? = some t) : t.id ≠ item.id := by
  intro hid
  have hcons := List.filterMap_cons_some (l := l₂) (a := (slot, state))
    (f := fun x : ℕ × SlotState QueuedTransfer => x.2.item?) hstate
  rw [items, hslots, List.filterMap_append, hcons, List.append_assoc, List.cons_append,
    List.map_append, List.map_cons, List.nodup_middle, List.nodup_cons, ← List.map_append,
    ← List.append_assoc, ← List.filterMap_append] at hnodup
  refine hnodup.1 ?_
  rw [← hid]
  exact List.mem_map_of_mem (List.mem_append_left _ (List.mem_filterMap.2 ⟨x, hx, hxt⟩))

/-- The slots with one replaced by one that is not fresh. -/
lemma freshLast_replace {x y : ℕ × SlotState QueuedTransfer} (hy : y.2.isFresh = false)
    (hbefore : x.2.isFresh = true → ∀ z ∈ l₁, z.2.isFresh = false)
    (h : (l₁ ++ x :: l₂).Pairwise fun x y => x.2.isFresh = true → y.2.isFresh = true) :
    (l₁ ++ y :: l₂).Pairwise fun x y => x.2.isFresh = true → y.2.isFresh = true := by
  simp only [List.pairwise_append, List.pairwise_cons, List.mem_cons] at h ⊢
  obtain ⟨h1, ⟨h2, h3⟩, h4⟩ := h
  refine ⟨h1, ⟨fun z _ hf => ?_, h3⟩, fun a ha b hb hf => ?_⟩
  · rw [hy] at hf
    cases hf
  · rcases hb with rfl | hb
    · have hx := h4 a ha x (Or.inl rfl) hf
      rw [hbefore hx a ha] at hf
      cases hf
    · exact h4 a ha b (Or.inr hb) hf

/-- The worker takes the oldest transfer that may admit a frame. -/
lemma takeRunnable (h : LaneLaw window log none lane) (hnodup : (lane.items.map (·.id)).Nodup)
    (ht : lane.takeRunnable = some ((slot, item), lane')) :
    LaneLaw window log (some (slot, item)) lane' := by
  obtain ⟨l₁, fresh, l₂, hslots, rfl, hbefore, hfresh⟩ := takeRunnable_some ht
  have hsub : ∀ x ∈ l₁ ++ (slot, .sending) :: l₂, x = (slot, .sending) ∨ x ∈ lane.slots := by
    intro x hx
    rw [hslots]
    simp only [List.mem_append, List.mem_cons] at hx ⊢
    tauto
  have hmem : (slot, .runnable item fresh) ∈ lane.slots := by
    rw [hslots]
    simp
  have hlast := h.freshLast
  rw [hslots] at hlast
  have hunstarted : lane.unstarted = (if fresh then [item] else []) ++
      unstarted { lane with slots := l₁ ++ (slot, .sending) :: l₂ } := by
    rw [unstarted, hslots, unstarted]
    cases fresh
    · simp [freshItem?]
    · have hl₁ : l₁.filterMap (fun x => x.2.freshItem?) = [] := by
        refine List.filterMap_eq_nil_iff.2 fun x hx => ?_
        have := ((hfresh rfl) x hx).2
        obtain ⟨token, state⟩ := x
        rcases state with ⟨it, _ | _⟩ | _ | ⟨d, r, it⟩ <;> first | rfl | cases this
      rw [List.filterMap_append, List.filterMap_append, hl₁]
      rfl
  have hitem : ∀ u ∈ unstarted { lane with slots := l₁ ++ (slot, .sending) :: l₂ },
      item.id < u.id := by
    intro u hu
    cases fresh
    · refine (h.above u ?_).1 _ (h.started _ hmem item rfl).1
      rw [hunstarted]
      exact hu
    · have hasc := h.ascending
      rw [hunstarted] at hasc
      exact (List.pairwise_cons.1 hasc).1 u hu
  -- no other transfer that started has frames left
  have halone : 0 < item.frames → ∀ x ∈ l₁ ++ (slot, .sending) :: l₂, ∀ t,
      x.2.startedItem? = some t → t.frames = 0 := by
    intro hframes x hx t hxt
    rcases hsub x hx with rfl | hxs
    · cases hxt
    · by_contra hne
      obtain ⟨htlog, htmax⟩ := h.started x hxs t hxt
      cases fresh
      · obtain ⟨hlog, hmax⟩ := h.started _ hmem item rfl
        have hid : t.id = item.id := le_antisymm (hmax hframes _ htlog)
          (htmax (Nat.pos_of_ne_zero hne) _ hlog)
        refine id_ne_of_nodup hnodup hslots (item?_runnable item false) (x := x) ?_ ?_ hid
        · simp only [List.mem_append, List.mem_cons] at hx ⊢
          rcases hx with hx | rfl | hx
          · exact Or.inl hx
          · cases hxt
          · exact Or.inr hx
        · rw [item?_eq, hxt]
          rfl
      · -- a fresh transfer starts only when nothing before it holds the wire
        obtain ⟨token, state⟩ := x
        have hx' : (token, state) ∈ l₁ := by
          simp only [List.mem_append, List.mem_cons] at hx
          rcases hx with hx | hx | hx
          · exact hx
          · cases hx
            cases hxt
          · have hfreshx : state.isFresh = true :=
              (List.pairwise_cons.1 (List.pairwise_append.1 hlast).2.1).1 _ hx rfl
            rcases state with ⟨it, _ | _⟩ | _ | ⟨d, r, it⟩
            · cases hfreshx
            · cases hxt
            · cases hfreshx
            · cases hfreshx
        rcases state with ⟨it, _ | _⟩ | _ | ⟨d, r, it⟩
        · exact hbefore _ hx' it rfl
        · cases hxt
        · cases hxt
        · obtain rfl := Option.some.inj hxt
          have hr := h.remainder _ hxs d r it rfl
          rw [QueuedTransfer.remainder, if_neg hne] at hr
          have hwire := (hfresh rfl _ hx').1
          rw [hr] at hwire
          cases hwire
  constructor
  case bound => simpa [hslots] using h.bound
  case heldSlot =>
    intro k hk
    obtain rfl := Option.some.inj hk
    simp
  case freshLast =>
    refine freshLast_replace (x := (slot, .runnable item fresh)) rfl (fun hf z hz => ?_) hlast
    cases fresh
    · cases hf
    · exact ((hfresh rfl) z hz).2
  case ascending =>
    have hasc := h.ascending
    rw [hunstarted] at hasc
    exact (List.pairwise_append.1 hasc).2.1
  case above =>
    intro u hu
    refine ⟨(h.above u ?_).1, fun k hk => ?_⟩
    · rw [hunstarted]
      exact List.mem_append_right _ hu
    · obtain rfl := Option.some.inj hk
      exact hitem u hu
  case started =>
    intro x hx t hxt
    rcases hsub x hx with rfl | hx
    · cases hxt
    · exact h.started x hx t hxt
  case heldLast =>
    intro k hk hframes
    obtain rfl := Option.some.inj hk
    refine ⟨?_, halone hframes⟩
    cases fresh
    · exact (h.started _ hmem item rfl).2 hframes
    · have hmem' : item ∈ lane.unstarted := by
        rw [hunstarted]
        exact List.mem_append_left _ (List.mem_singleton_self item)
      exact fun y hy => ((h.above item hmem').1 y hy).le
  case remainder =>
    intro x hx d r t hxt
    rcases hsub x hx with rfl | hx
    · cases hxt
    · exact h.remainder x hx d r t hxt
  case sorted => exact h.sorted

lemma slots_split (h : LaneLaw window log (some (slot, item)) lane)
    (htokens : (lane.slots.map Prod.fst).Nodup) :
    ∃ l₁ l₂, lane.slots = l₁ ++ (slot, .sending) :: l₂ ∧ ∀ x ∈ l₁ ++ l₂, x.1 ≠ slot := by
  obtain ⟨l₁, l₂, hslots⟩ := List.mem_iff_append.1 (h.heldSlot _ rfl)
  rw [hslots] at htokens
  exact ⟨l₁, l₂, hslots, tokens_ne htokens⟩

/-- A popped transfer admits a frame and waits for its delivery. -/
lemma waitForDelivery (h : LaneLaw window log (some (slot, item)) lane)
    (htokens : (lane.slots.map Prod.fst).Nodup) {sent : QueuedTransfer} (hid : sent.id = item.id)
    (hframes : 0 < item.frames) (delivery : ℕ) :
    LaneLaw window (log ++ [item.id]) none
      (lane.waitForDelivery slot delivery sent.remainder sent) := by
  obtain ⟨l₁, l₂, hslots, hne⟩ := h.slots_split htokens
  obtain ⟨hmax, halone⟩ := h.heldLast _ rfl hframes
  have hlane : lane.waitForDelivery slot delivery sent.remainder sent =
      { lane with slots := l₁ ++ (slot, .waiting delivery sent.remainder sent) :: l₂ } := by
    rw [TransferLane.waitForDelivery, hslots,
      resumeSlot_append_cons fun x hx => hne x (List.mem_append_left _ hx)]
  have hsub : ∀ x ∈ l₁ ++ (slot, .waiting delivery sent.remainder sent) :: l₂,
      x = (slot, .waiting delivery sent.remainder sent) ∨ x ∈ lane.slots := by
    intro x hx
    rw [hslots]
    simp only [List.mem_append, List.mem_cons] at hx ⊢
    tauto
  have hunstarted : unstarted { lane with
      slots := l₁ ++ (slot, .waiting delivery sent.remainder sent) :: l₂ } = lane.unstarted := by
    rw [unstarted_append_cons rfl, ← unstarted_append_cons (s := .sending) rfl,
      ← hslots]
  have hlast := h.freshLast
  rw [hslots] at hlast
  rw [hlane]
  constructor
  case bound => simpa [hslots] using h.bound
  case heldSlot => simp
  case freshLast => exact freshLast_replace (x := (slot, .sending)) rfl (fun hf => by cases hf) hlast
  case ascending =>
    rw [hunstarted]
    exact h.ascending
  case above =>
    intro u hu
    rw [hunstarted] at hu
    obtain ⟨hlog, hheld⟩ := h.above u hu
    refine ⟨fun y hy => ?_, by simp⟩
    rcases List.mem_append.1 hy with hy | hy
    · exact hlog y hy
    · rw [List.mem_singleton.1 hy]
      exact hheld _ rfl
  case started =>
    intro x hx t hxt
    rcases hsub x hx with rfl | hx
    · obtain rfl := Option.some.inj hxt
      rw [hid]
      refine ⟨List.mem_append_right _ (List.mem_singleton_self _), fun _ y hy => ?_⟩
      rcases List.mem_append.1 hy with hy | hy
      · exact hmax y hy
      · exact (List.mem_singleton.1 hy).le
    · refine ⟨List.mem_append_left _ (h.started x hx t hxt).1, fun ht => ?_⟩
      rw [halone x hx t hxt] at ht
      exact absurd ht (lt_irrefl 0)
  case heldLast => simp
  case remainder =>
    intro x hx d r t hxt
    rcases hsub x hx with rfl | hx
    · cases hxt
      rfl
    · exact h.remainder x hx d r t hxt
  case sorted =>
    refine List.pairwise_append.2 ⟨h.sorted, List.pairwise_singleton _ _, fun y hy z hz => ?_⟩
    rw [List.mem_singleton.1 hz]
    exact hmax y hy

lemma erase {x : ℕ × SlotState QueuedTransfer} (hslots : lane.slots = l₁ ++ x :: l₂)
    (h : LaneLaw window log held lane) (hheld : ∀ k, held = some k → (k.1, .sending) ∈ l₁ ++ l₂) :
    LaneLaw window log held { lane with slots := l₁ ++ l₂ } := by
  have hsublist : l₁ ++ l₂ <+ lane.slots := by
    rw [hslots]
    exact (List.sublist_cons_self x l₂).append_left l₁
  have hunstarted : unstarted { lane with slots := l₁ ++ l₂ } <+ lane.unstarted :=
    (hsublist.filterMap _).append_right _
  constructor
  case bound => exact hsublist.length_le.trans h.bound
  case heldSlot => exact hheld
  case freshLast => exact h.freshLast.sublist hsublist
  case ascending => exact h.ascending.sublist hunstarted
  case above => exact fun u hu => h.above u (hunstarted.subset hu)
  case started => exact fun x hx => h.started x (hsublist.subset hx)
  case heldLast =>
    intro k hk hframes
    obtain ⟨hmax, halone⟩ := h.heldLast k hk hframes
    exact ⟨hmax, fun x hx => halone x (hsublist.subset hx)⟩
  case remainder => exact fun x hx => h.remainder x (hsublist.subset hx)
  case sorted => exact h.sorted

lemma finish (h : LaneLaw window log (some (slot, item)) lane)
    (htokens : (lane.slots.map Prod.fst).Nodup) :
    LaneLaw window log none (lane.finish slot window) := by
  obtain ⟨l₁, l₂, hslots, hne⟩ := h.slots_split htokens
  unfold TransferLane.finish
  rw [hslots, filter_append_cons hne]
  exact (h.release.erase hslots (by simp)).refill

/-- A delivered frame leaves its transfer ready for the next. -/
lemma delivered (h : LaneLaw window log held lane) (htokens : (lane.slots.map Prod.fst).Nodup)
    (ht : lane.takeWaiting delivery = some ((slot, item), lane')) :
    LaneLaw window log held (lane'.makeRunnable slot item) := by
  obtain ⟨l₁, r, l₂, hslots, rfl⟩ := takeWaiting_some ht
  have hne : ∀ x ∈ l₁ ++ l₂, x.1 ≠ slot := by
    rw [hslots] at htokens
    exact tokens_ne (by simpa using htokens)
  have hlane : TransferLane.makeRunnable { lane with slots := l₁ ++ (slot, .sending) :: l₂ } slot
      item = { lane with slots := l₁ ++ (slot, .runnable item false) :: l₂ } := by
    rw [TransferLane.makeRunnable,
      resumeSlot_append_cons fun x hx => hne x (List.mem_append_left _ hx)]
  have hmem : (slot, .waiting delivery r item) ∈ lane.slots := by
    rw [hslots]
    simp
  have hsub : ∀ x ∈ l₁ ++ (slot, .runnable item false) :: l₂,
      x = (slot, .runnable item false) ∨ x ∈ lane.slots := by
    intro x hx
    rw [hslots]
    simp only [List.mem_append, List.mem_cons] at hx ⊢
    tauto
  have hstarted : ∀ x ∈ l₁ ++ (slot, .runnable item false) :: l₂, ∀ t,
      x.2.startedItem? = some t → ∃ y ∈ lane.slots, y.2.startedItem? = some t := by
    intro x hx t hxt
    rcases hsub x hx with rfl | hx
    · exact ⟨_, hmem, hxt⟩
    · exact ⟨x, hx, hxt⟩
  have hunstarted : unstarted { lane with
      slots := l₁ ++ (slot, .runnable item false) :: l₂ } = lane.unstarted := by
    rw [unstarted_append_cons rfl,
      ← unstarted_append_cons (s := .waiting delivery r item) rfl, ← hslots]
  have hlast := h.freshLast
  rw [hslots] at hlast
  rw [hlane]
  constructor
  case bound => simpa [hslots] using h.bound
  case heldSlot =>
    intro k hk
    have hk := h.heldSlot k hk
    rw [hslots] at hk
    simp only [List.mem_append, List.mem_cons, Prod.mk.injEq, reduceCtorEq, and_false,
      false_or] at hk ⊢
    exact hk
  case freshLast =>
    exact freshLast_replace (x := (slot, .waiting delivery r item)) rfl (fun hf => by cases hf) hlast
  case ascending =>
    rw [hunstarted]
    exact h.ascending
  case above =>
    rw [hunstarted]
    exact h.above
  case started =>
    intro x hx t hxt
    obtain ⟨y, hy, hyt⟩ := hstarted x hx t hxt
    exact h.started y hy t hyt
  case heldLast =>
    intro k hk hframes
    obtain ⟨hmax, halone⟩ := h.heldLast k hk hframes
    refine ⟨hmax, fun x hx t hxt => ?_⟩
    obtain ⟨y, hy, hyt⟩ := hstarted x hx t hxt
    exact halone y hy t hyt
  case remainder =>
    intro x hx d r' t hxt
    rcases hsub x hx with rfl | hx
    · cases hxt
    · exact h.remainder x hx d r' t hxt
  case sorted => exact h.sorted

/-- A transfer ends with the delivery it waited for. -/
lemma terminated (h : LaneLaw window log held lane) (htokens : (lane.slots.map Prod.fst).Nodup)
    (ht : lane.takeWaiting delivery = some ((slot, item), lane')) :
    LaneLaw window log held (lane'.finish slot window) := by
  obtain ⟨l₁, r, l₂, hslots, rfl⟩ := takeWaiting_some ht
  have hne : ∀ x ∈ l₁ ++ l₂, x.1 ≠ slot := by
    rw [hslots] at htokens
    exact tokens_ne (by simpa using htokens)
  unfold TransferLane.finish
  simp only [filter_append_cons hne]
  refine (h.erase hslots fun k hk => ?_).refill
  have hk := h.heldSlot k hk
  rw [hslots] at hk
  simp only [List.mem_append, List.mem_cons, Prod.mk.injEq, reduceCtorEq, and_false,
    false_or] at hk ⊢
  exact hk

/-- A lane after a cancellation keeps the transfers that remain in their order. -/
lemma removeReadyWhere (h : LaneLaw window log held lane) (p : QueuedTransfer → Bool) :
    LaneLaw window log held (lane.removeReadyWhere p window).2 := by
  refine LaneLaw.refill ?_
  have hsublist : lane.slots.filter (fun entry => (removable p entry.2).isNone) <+ lane.slots :=
    List.filter_sublist
  have hunstarted : unstarted { lane with
      queued := lane.queued.filter fun item => !p item
      slots := lane.slots.filter fun entry => (removable p entry.2).isNone } <+ lane.unstarted :=
    (hsublist.filterMap _).append List.filter_sublist
  constructor
  case bound => exact hsublist.length_le.trans h.bound
  case heldSlot =>
    intro k hk
    exact List.mem_filter.2 ⟨h.heldSlot k hk, rfl⟩
  case freshLast => exact h.freshLast.sublist hsublist
  case ascending => exact h.ascending.sublist hunstarted
  case above => exact fun u hu => h.above u (hunstarted.subset hu)
  case started => exact fun x hx => h.started x (hsublist.subset hx)
  case heldLast =>
    intro k hk hframes
    obtain ⟨hmax, halone⟩ := h.heldLast k hk hframes
    exact ⟨hmax, fun x hx => halone x (hsublist.subset hx)⟩
  case remainder => exact fun x hx => h.remainder x (hsublist.subset hx)
  case sorted => exact h.sorted

lemma drainTransfers (h : LaneLaw window log held lane) :
    LaneLaw window log none lane.drainTransfers.2 where
  bound := Nat.zero_le _
  heldSlot := by simp
  freshLast := List.Pairwise.nil
  ascending := List.Pairwise.nil
  above := by simp [unstarted, TransferLane.drainTransfers]
  started := by simp [TransferLane.drainTransfers]
  heldLast := by simp
  remainder := by simp [TransferLane.drainTransfers]
  sorted := h.sorted

end LaneLaw

end Rings.Outbound
