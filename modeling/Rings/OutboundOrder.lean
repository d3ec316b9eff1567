import Rings.OutboundLanes

/-!
Order and bound of the outbound lanes over the runs of a worker.

A slot is addressed by its token, and tokens wrap: what follows holds while no token is issued
again to another slot of the lane before the first is released.
-/

namespace Rings.Outbound

open scoped List
open TransferLane SlotState

lemma nodup_classes : classes.Nodup := by decide

/-! ### The transfers a lane owns after an operation -/

namespace TransferLane

variable {lane lane' : TransferLane QueuedTransfer} {slot delivery window : ℕ}
  {item : QueuedTransfer} {l₁ l₂ : List (ℕ × SlotState QueuedTransfer)}

def ids (lane : TransferLane QueuedTransfer) : List ℕ := lane.items.map (·.id)

lemma mem_ids {n : ℕ} : n ∈ lane.ids ↔
    (∃ x ∈ lane.slots, ∃ t, x.2.item? = some t ∧ t.id = n) ∨ ∃ t ∈ lane.queued, t.id = n := by
  simp only [ids, items, List.mem_map, List.mem_append, List.mem_filterMap, or_and_right, exists_or]
  refine or_congr_left ?_
  constructor
  · rintro ⟨t, ⟨x, hx, hxt⟩, rfl⟩
    exact ⟨x, hx, t, hxt, rfl⟩
  · rintro ⟨x, hx, t, hxt, rfl⟩
    exact ⟨t, ⟨x, hx, hxt⟩, rfl⟩

lemma id_mem_of_unstarted {t : QueuedTransfer} (h : t ∈ lane.unstarted) : t.id ∈ lane.ids := by
  rcases List.mem_append.1 h with h | h
  · obtain ⟨x, hx, hxt⟩ := List.mem_filterMap.1 h
    refine mem_ids.2 (Or.inl ⟨x, hx, t, ?_, rfl⟩)
    obtain ⟨token, state⟩ := x
    rcases state with ⟨it, _ | _⟩ | _ | ⟨d, r, it⟩
    · cases hxt
    · exact hxt
    · cases hxt
    · cases hxt
  · exact mem_ids.2 (Or.inr ⟨t, h, rfl⟩)

lemma ids_append_cons (state : SlotState QueuedTransfer) (queued : List QueuedTransfer)
    (nextSlot : ℕ) :
    (ids ⟨l₁ ++ (slot, state) :: l₂, queued, nextSlot⟩ : Multiset ℕ) =
      ids ⟨l₁ ++ l₂, queued, nextSlot⟩ + (state.item?.map (·.id)).toList := by
  have hcons : ((slot, state) :: l₂).filterMap (fun x => x.2.item?) =
      state.item?.toList ++ l₂.filterMap fun x => x.2.item? := by
    rw [List.filterMap_cons]
    cases state.item? <;> rfl
  simp only [ids, items, List.filterMap_append, hcons, List.map_append, ← Multiset.coe_add]
  rw [show (state.item?.map (·.id)).toList = state.item?.toList.map (·.id) by
    cases state.item? <;> rfl]
  abel

lemma ids_enqueue (t : QueuedTransfer) (window : ℕ) :
    ((lane.enqueue t window).ids : Multiset ℕ) = lane.ids + {t.id} := by
  rw [enqueue, ids, items_refill, ids, items]
  simp [items, ← Multiset.coe_singleton, Multiset.coe_add]

lemma ids_takeRunnable (h : lane.takeRunnable = some ((slot, item), lane')) :
    (lane.ids : Multiset ℕ) = lane'.ids + {item.id} := by
  obtain ⟨l₁, fresh, l₂, hslots, rfl, -, -⟩ := takeRunnable_some h
  obtain ⟨slots, queued, nextSlot⟩ := lane
  simp only at hslots
  subst hslots
  rw [ids_append_cons, ids_append_cons]
  simp

lemma ids_takeWaiting (h : lane.takeWaiting delivery = some ((slot, item), lane')) :
    (lane.ids : Multiset ℕ) = lane'.ids + {item.id} := by
  obtain ⟨l₁, r, l₂, hslots, rfl⟩ := takeWaiting_some h
  obtain ⟨slots, queued, nextSlot⟩ := lane
  simp only at hslots
  subst hslots
  rw [ids_append_cons, ids_append_cons]
  simp

/-- A sending slot takes its transfer back. -/
lemma ids_resumeSlot (hslots : lane.slots = l₁ ++ (slot, .sending) :: l₂)
    (hne : ∀ x ∈ l₁ ++ l₂, x.1 ≠ slot) {next : SlotState QueuedTransfer}
    (hnext : next.item? = some item) :
    (ids { lane with slots := resumeSlot slot next lane.slots } : Multiset ℕ) =
      lane.ids + {item.id} := by
  obtain ⟨slots, queued, nextSlot⟩ := lane
  simp only at hslots
  subst hslots
  rw [resumeSlot_append_cons fun x hx => hne x (List.mem_append_left _ hx), ids_append_cons,
    ids_append_cons, hnext]
  simp

/-- A sending slot is released. -/
lemma ids_finish (hslots : lane.slots = l₁ ++ (slot, .sending) :: l₂)
    (hne : ∀ x ∈ l₁ ++ l₂, x.1 ≠ slot) (window : ℕ) :
    ((lane.finish slot window).ids : Multiset ℕ) = lane.ids := by
  obtain ⟨slots, queued, nextSlot⟩ := lane
  simp only at hslots
  subst hslots
  rw [finish, ids, items_refill, filter_append_cons hne]
  have := @ids_append_cons slot l₁ l₂ .sending queued nextSlot
  simpa [ids] using this.symm

lemma ids_removeReadyWhere (p : QueuedTransfer → Bool) (window : ℕ) :
    (lane.ids : Multiset ℕ) = (lane.removeReadyWhere p window).2.ids +
      (lane.removeReadyWhere p window).1.map (·.id) := by
  have hslots : ∀ slots : List (ℕ × SlotState QueuedTransfer),
      ((slots.filterMap fun x => x.2.item?) : Multiset QueuedTransfer) =
        ((slots.filter fun x => (removable p x.2).isNone).filterMap fun x => x.2.item?) +
          (slots.filterMap fun x => removable p x.2) := by
    intro slots
    induction slots with
    | nil => rfl
    | cons x slots ih =>
      obtain ⟨token, state⟩ := x
      rcases state with ⟨t, f⟩ | _ | ⟨d, r, t⟩
      · cases hp : p t
        · simp only [List.filterMap_cons, item?_runnable, removable, hp, Bool.false_eq_true,
            if_false, Option.isNone_none, List.filter_cons_of_pos, ← Multiset.cons_coe, ih,
            Multiset.cons_add]
        · simp only [List.filterMap_cons, item?_runnable, removable, hp, if_true,
            Option.isNone_some, Bool.false_eq_true, not_false_eq_true, List.filter_cons_of_neg,
            ← Multiset.cons_coe, ih, Multiset.add_cons]
      · simpa [List.filterMap_cons, removable] using ih
      · simp only [List.filterMap_cons, item?_waiting, removable, Option.isNone_none,
          List.filter_cons_of_pos, ← Multiset.cons_coe, ih, Multiset.cons_add]
  have hqueued : (lane.queued : Multiset QueuedTransfer) =
      (lane.queued.filter fun t => !p t) + (lane.queued.filter p) := by
    have := Multiset.filter_add_not (fun t => p t = true) (lane.queued : Multiset QueuedTransfer)
    rw [add_comm] at this
    simpa using this.symm
  have hitems : (lane.items : Multiset QueuedTransfer) =
      (lane.removeReadyWhere p window).2.items + (lane.removeReadyWhere p window).1 := by
    rw [removeReadyWhere, items_refill]
    simp only [items, ← Multiset.coe_add, hslots lane.slots]
    conv_lhs => rw [hqueued]
    abel
  have := congrArg (Multiset.map (·.id)) hitems
  simpa [ids] using this

/-- The deliveries the transfers of a lane wait for, with their identities. -/
def awaiting (lane : TransferLane QueuedTransfer) : List (ℕ × ℕ) :=
  lane.slots.filterMap fun x =>
    match x.2 with
    | .waiting d _ t => some (d, t.id)
    | _ => none

lemma awaiting_refill (lane : TransferLane QueuedTransfer) (window : ℕ) :
    (lane.refill window).awaiting = lane.awaiting := by
  obtain ⟨new, hslots, hnew, -⟩ := refill_spec lane window
  rw [awaiting, awaiting, hslots, List.filterMap_append, List.append_right_eq_self,
    List.filterMap_eq_nil_iff]
  intro x hx
  obtain ⟨t, ht⟩ := hnew x hx
  rw [ht]

lemma awaiting_enqueue (t : QueuedTransfer) (window : ℕ) :
    (lane.enqueue t window).awaiting = lane.awaiting := awaiting_refill _ _

lemma awaiting_takeRunnable (h : lane.takeRunnable = some ((slot, item), lane')) :
    lane'.awaiting = lane.awaiting := by
  obtain ⟨l₁, fresh, l₂, hslots, rfl, -⟩ := takeRunnable_some h
  simp [awaiting, hslots]

lemma awaiting_finish (hslots : lane.slots = l₁ ++ (slot, .sending) :: l₂)
    (hne : ∀ x ∈ l₁ ++ l₂, x.1 ≠ slot) (window : ℕ) :
    (lane.finish slot window).awaiting = lane.awaiting := by
  rw [finish, awaiting_refill, awaiting, awaiting, hslots, filter_append_cons hne]
  simp

lemma mem_awaiting_waitForDelivery (hslots : lane.slots = l₁ ++ (slot, .sending) :: l₂)
    (hne : ∀ x ∈ l₁ ++ l₂, x.1 ≠ slot) (r : FrameRemainder) (p : ℕ × ℕ) :
    p ∈ (lane.waitForDelivery slot delivery r item).awaiting ↔
      p = (delivery, item.id) ∨ p ∈ lane.awaiting := by
  rw [waitForDelivery, awaiting, awaiting, hslots,
    resumeSlot_append_cons fun x hx => hne x (List.mem_append_left _ hx)]
  simp only [List.filterMap_append, List.filterMap_cons, List.mem_append, List.mem_cons]
  tauto

lemma mem_awaiting_takeWaiting (h : lane.takeWaiting delivery = some ((slot, item), lane'))
    (p : ℕ × ℕ) : p ∈ lane.awaiting ↔ p = (delivery, item.id) ∨ p ∈ lane'.awaiting := by
  obtain ⟨l₁, r, l₂, hslots, rfl⟩ := takeWaiting_some h
  rw [awaiting, awaiting, hslots]
  simp only [List.filterMap_append, List.filterMap_cons, List.mem_append, List.mem_cons]
  tauto

lemma awaiting_makeRunnable {t : QueuedTransfer}
    (hslots : lane.slots = l₁ ++ (slot, .sending) :: l₂) (hne : ∀ x ∈ l₁ ++ l₂, x.1 ≠ slot) :
    (lane.makeRunnable slot t).awaiting = lane.awaiting := by
  rw [makeRunnable, awaiting, awaiting, hslots,
    resumeSlot_append_cons fun x hx => hne x (List.mem_append_left _ hx)]
  simp

/-- The slot of a transfer taken for its delivery. -/
lemma takeWaiting_split (htokens : (lane.slots.map Prod.fst).Nodup)
    (h : lane.takeWaiting delivery = some ((slot, item), lane')) :
    ∃ l₁ l₂, lane'.slots = l₁ ++ (slot, .sending) :: l₂ ∧ ∀ x ∈ l₁ ++ l₂, x.1 ≠ slot := by
  obtain ⟨l₁, r, l₂, hslots, rfl⟩ := takeWaiting_some h
  refine ⟨l₁, l₂, rfl, ?_⟩
  rw [hslots] at htokens
  exact tokens_ne (by simpa using htokens)

/-- A lane without a transfer that waits for a delivery takes none. -/
lemma notMem_awaiting (h : lane.takeWaiting delivery = none) {p : ℕ × ℕ}
    (hp : p ∈ lane.awaiting) : p.1 ≠ delivery := by
  rw [takeWaiting, Option.map_eq_none_iff] at h
  obtain ⟨⟨token, state⟩, hx, hxp⟩ := List.mem_filterMap.1 hp
  have hw := takeWaitingFrom_none h _ hx
  rcases state with ⟨t, f⟩ | _ | ⟨d, r, t⟩
  · cases hxp
  · cases hxp
  · obtain rfl := Option.some.inj hxp
    simpa [waitsOn] using hw

lemma awaiting_removeReadyWhere (p : QueuedTransfer → Bool) (window : ℕ) :
    (lane.removeReadyWhere p window).2.awaiting = lane.awaiting := by
  rw [removeReadyWhere, awaiting_refill, awaiting, awaiting, List.filterMap_filter]
  refine List.filterMap_congr fun x _ => ?_
  obtain ⟨token, state⟩ := x
  rcases state with ⟨t, f⟩ | _ | ⟨d, r, t⟩
  · simp
  · simp
  · simp [removable]

lemma mem_ids_of_awaiting {p : ℕ × ℕ} (hp : p ∈ lane.awaiting) : p.2 ∈ lane.ids := by
  obtain ⟨⟨token, state⟩, hx, hxp⟩ := List.mem_filterMap.1 hp
  rcases state with ⟨t, f⟩ | _ | ⟨d, r, t⟩
  · cases hxp
  · cases hxp
  · obtain rfl := Option.some.inj hxp
    exact mem_ids.2 (Or.inl ⟨_, hx, t, rfl, rfl⟩)

end TransferLane

namespace TransferQueues

variable {T : Type*} {q q' : TransferQueues T}

@[simp] lemma lanes_setLane (q : TransferQueues T) (c : TransferClass) (lane : TransferLane T) :
    (q.setLane c lane).lanes = Function.update q.lanes c lane := rfl

@[simp] lemma window_setLane (q : TransferQueues T) (c : TransferClass) (lane : TransferLane T) :
    (q.setLane c lane).window = q.window := rfl

lemma setLane_setLane (q : TransferQueues T) (c : TransferClass) (lane lane' : TransferLane T) :
    (q.setLane c lane).setLane c lane' = q.setLane c lane' := by
  simp [setLane]

@[simp] lemma lanes_advanceFairness (q : TransferQueues T) (c : TransferClass) :
    (q.advanceFairness c).lanes = q.lanes := by
  unfold advanceFairness
  split <;> rfl

@[simp] lemma window_advanceFairness (q : TransferQueues T) (c : TransferClass) :
    (q.advanceFairness c).window = q.window := by
  unfold advanceFairness
  split <;> rfl

lemma pop_some {credited : TransferClass → Bool} {t : RunnableTransfer T}
    (h : q.pop credited = some (t, q')) : q.selected credited = some t.class_ ∧
      ∃ lane', (q.lanes t.class_).takeRunnable = some ((t.slot, t.item), lane') ∧
        q' = q.setLane t.class_ lane' := by
  obtain ⟨c, hc, h⟩ := Option.bind_eq_some_iff.1 h
  obtain ⟨⟨⟨slot, item⟩, lane'⟩, ht, heq⟩ := Option.map_eq_some_iff.1 h
  simp only [Prod.mk.injEq] at heq
  obtain ⟨rfl, rfl⟩ := heq
  exact ⟨hc, lane', ht, rfl⟩

lemma takeWaiting_some {c : TransferClass} {delivery : ℕ} {t : RunnableTransfer T}
    (h : q.takeWaiting c delivery = some (t, q')) : t.class_ = c ∧
      ∃ lane', (q.lanes c).takeWaiting delivery = some ((t.slot, t.item), lane') ∧
        q' = q.setLane c lane' := by
  obtain ⟨⟨⟨slot, item⟩, lane'⟩, ht, heq⟩ := Option.map_eq_some_iff.1 h
  simp only [Prod.mk.injEq] at heq
  obtain ⟨rfl, rfl⟩ := heq
  exact ⟨rfl, lane', ht, rfl⟩

end TransferQueues

/-! ### The law of a worker -/

namespace OutboundWorker

variable (s : OutboundWorker)

/-- The transfers of a class, one for each frame it admitted. -/
def log (c : TransferClass) : List ℕ := (s.admitted.filter (·.1 = c)).map Prod.snd

def held (c : TransferClass) : Option (ℕ × QueuedTransfer) :=
  s.active.bind fun t => if t.class_ = c then some (t.slot, t.item) else none

/-- The transfers the lanes own, the popped one, and those handed back. -/
def ids : Multiset ℕ :=
  (classes.flatMap fun c => (s.ready.lanes c).ids) +
    (s.active.map (·.item.id)).toList + s.handedBack.map (·.id)

/-- No lane issued one token to two slots. -/
def Distinct : Prop := ∀ c, ((s.ready.lanes c).slots.map Prod.fst).Nodup

structure Lawful : Prop where
  lanes : ∀ c, LaneLaw s.ready.window (s.log c) (s.held c) (s.ready.lanes c)
  conserved : s.ids = List.range s.nextId
  logged : ∀ x ∈ s.admitted, x.2 < s.nextId
  awaited : ∀ c, ∀ p ∈ (s.ready.lanes c).awaiting, ⟨c, p.1, p.2⟩ ∈ s.deliveries
  settling : ∀ f ∈ s.deliveries, (f.delivery, f.id) ∈ (s.ready.lanes f.class_).awaiting ∨
    f.id ∈ s.handedBack.map (·.id)
  keys : (s.deliveries.map fun f => (f.class_, f.delivery)).Nodup
  oneInFlight : (s.deliveries.map (·.id)).Nodup

variable {s}

lemma held_of_active {t : RunnableTransfer QueuedTransfer} (h : s.active = some t) :
    s.held t.class_ = some (t.slot, t.item) := by
  simp [held, h]

lemma held_of_ne {t : RunnableTransfer QueuedTransfer} (h : s.active = some t) {c : TransferClass}
    (hc : c ≠ t.class_) : s.held c = none := by
  simp [held, h, Ne.symm hc]

namespace Lawful

lemma nodup (h : s.Lawful) : s.ids.Nodup := by
  rw [h.conserved]
  exact Multiset.coe_nodup.2 List.nodup_range

lemma mem_ids_lane {c : TransferClass} {n : ℕ} (hn : n ∈ (s.ready.lanes c).ids) :
    n ∈ (classes.flatMap fun c => (s.ready.lanes c).ids) :=
  List.mem_flatMap.2 ⟨c, mem_classes c, hn⟩

lemma lt_of_mem (h : s.Lawful) {n : ℕ} (hn : n ∈ s.ids) : n < s.nextId := by
  rw [h.conserved] at hn
  exact List.mem_range.1 (Multiset.mem_coe.1 hn)

lemma lt_of_lane (h : s.Lawful) {c : TransferClass} {n : ℕ} (hn : n ∈ (s.ready.lanes c).ids) :
    n < s.nextId :=
  h.lt_of_mem (Multiset.mem_add.2 (Or.inl (Multiset.mem_add.2 (Or.inl (mem_ids_lane hn)))))

lemma nodup_lane (h : s.Lawful) (c : TransferClass) : (s.ready.lanes c).ids.Nodup := by
  have hlanes : ((classes.flatMap fun c => (s.ready.lanes c).ids) : Multiset ℕ).Nodup :=
    Multiset.nodup_of_le (le_trans (Multiset.le_add_right _ _) (Multiset.le_add_right _ _)) h.nodup
  exact (List.nodup_flatMap.1 (Multiset.coe_nodup.1 hlanes)).1 c (mem_classes c)

lemma active_notMem_lane (h : s.Lawful) {t : RunnableTransfer QueuedTransfer}
    (ht : s.active = some t) (c : TransferClass) : t.item.id ∉ (s.ready.lanes c).ids := by
  intro hmem
  have hnodup := h.nodup
  rw [ids, ht] at hnodup
  have hdisjoint := (Multiset.nodup_add.1 (Multiset.nodup_add.1 hnodup).1).2.2
  exact Multiset.disjoint_left.1 hdisjoint (mem_ids_lane hmem) (by simp)

lemma active_notMem_handedBack (h : s.Lawful) {t : RunnableTransfer QueuedTransfer}
    (ht : s.active = some t) : t.item.id ∉ s.handedBack.map (·.id) := by
  intro hmem
  have hnodup := h.nodup
  rw [ids, ht] at hnodup
  refine Multiset.disjoint_left.1 (Multiset.nodup_add.1 hnodup).2.2 ?_ hmem
  exact Multiset.mem_add.2 (Or.inr (by simp))

end Lawful

lemma log_append (s : OutboundWorker) (c : TransferClass) (n : ℕ) (d : TransferClass) :
    ((s.admitted ++ [(c, n)]).filter (·.1 = d)).map Prod.snd =
      s.log d ++ if d = c then [n] else [] := by
  rw [List.filter_append, List.map_append, log]
  by_cases hd : c = d
  · simp [hd]
  · simp [hd, Ne.symm hd]

/-- The lanes after one of them changed. -/
lemma ids_setLane {q : TransferQueues QueuedTransfer} (c : TransferClass)
    {l : TransferLane QueuedTransfer} {y : Multiset ℕ}
    (h : (l.ids : Multiset ℕ) = (q.lanes c).ids + y) :
    ((classes.flatMap fun d => ((q.setLane c l).lanes d).ids) : Multiset ℕ) =
      (classes.flatMap fun d => (q.lanes d).ids) + y :=
  PerLane.flatMap_update_add nodup_classes (mem_classes c) h

lemma ids_setLane_sub {q : TransferQueues QueuedTransfer} (c : TransferClass)
    {l : TransferLane QueuedTransfer} {y : Multiset ℕ}
    (h : ((q.lanes c).ids : Multiset ℕ) = l.ids + y) :
    ((classes.flatMap fun d => ((q.setLane c l).lanes d).ids) : Multiset ℕ) + y =
      (classes.flatMap fun d => (q.lanes d).ids : List ℕ) :=
  PerLane.flatMap_update_sub nodup_classes (mem_classes c) h

lemma forall_setLane {q : TransferQueues QueuedTransfer} {c : TransferClass}
    {lane : TransferLane QueuedTransfer} {P : TransferClass → TransferLane QueuedTransfer → Prop} :
    (∀ d, P d ((q.setLane c lane).lanes d)) ↔ P c lane ∧ ∀ d ≠ c, P d (q.lanes d) :=
  Function.forall_update_iff _ _

lemma awaiting_setLane {q : TransferQueues QueuedTransfer} (c : TransferClass)
    {lane : TransferLane QueuedTransfer} (h : lane.awaiting = (q.lanes c).awaiting)
    (d : TransferClass) : ((q.setLane c lane).lanes d).awaiting = (q.lanes d).awaiting := by
  by_cases hd : d = c
  · subst hd
    rw [TransferQueues.lanes_setLane, Function.update_self, h]
  · rw [TransferQueues.lanes_setLane, Function.update_of_ne hd]

namespace Lawful

/-! ### One step -/

lemma enqueueTransfer (h : s.Lawful) (c : TransferClass) (frames : ℕ) :
    (s.enqueueTransfer c frames).Lawful := by
  have hawaiting := awaiting_setLane c (@awaiting_enqueue (s.ready.lanes c)
    ⟨s.nextId, frames⟩ s.ready.window)
  constructor
  case lanes =>
    refine (forall_setLane (P := fun d lane => LaneLaw s.ready.window (s.log d) (s.held d) lane)).2
      ⟨?_, fun d _ => h.lanes d⟩
    refine (h.lanes c).enqueue (fun u hu => h.lt_of_lane (id_mem_of_unstarted hu)) ?_ ?_
    · intro y hy
      obtain ⟨x, hx, rfl⟩ := List.mem_map.1 hy
      exact h.logged x (List.mem_filter.1 hx).1
    · intro k hk
      obtain ⟨t, ht, hkt⟩ := Option.bind_eq_some_iff.1 hk
      split at hkt
      · obtain rfl := Option.some.inj hkt
        refine h.lt_of_mem (Multiset.mem_add.2 (Or.inl (Multiset.mem_add.2 (Or.inr ?_))))
        simp [ht]
      · cases hkt
  case conserved =>
    have hlane := ids_setLane c (@ids_enqueue (s.ready.lanes c) ⟨s.nextId, frames⟩
      s.ready.window)
    have hold := h.conserved
    simp only [ids, OutboundWorker.enqueueTransfer, TransferQueues.push, hlane] at hold ⊢
    rw [List.range_succ, ← Multiset.coe_add, ← hold, Multiset.coe_singleton]
    abel
  case logged => exact fun x hx => (h.logged x hx).trans (Nat.lt_succ_self _)
  case awaited =>
    intro d p hp
    rw [OutboundWorker.enqueueTransfer, TransferQueues.push, hawaiting] at hp
    exact h.awaited d p hp
  case settling =>
    intro f hf
    rw [OutboundWorker.enqueueTransfer, TransferQueues.push, hawaiting]
    exact h.settling f hf
  case keys => exact h.keys
  case oneInFlight => exact h.oneInFlight

lemma pop (h : s.Lawful) (credited : TransferClass → Bool) : (s.pop credited).Lawful := by
  unfold OutboundWorker.pop
  cases hactive : s.active with
  | some t => exact h
  | none =>
    cases hp : s.ready.pop credited with
    | none => exact h
    | some taken =>
      obtain ⟨t, ready⟩ := taken
      obtain ⟨-, lane', ht, rfl⟩ := TransferQueues.pop_some hp
      have hawaiting := awaiting_setLane t.class_ (awaiting_takeRunnable ht)
      have hheld : ∀ c, s.held c = none := by simp [held, hactive]
      constructor
      case lanes =>
        refine (forall_setLane (P := fun d lane => LaneLaw s.ready.window (s.log d)
          (held { s with ready := s.ready.setLane t.class_ lane', active := some t } d) lane)).2
          ⟨?_, fun d hd => ?_⟩
        · rw [held_of_active rfl]
          refine LaneLaw.takeRunnable ?_ (h.nodup_lane t.class_) ht
          rw [← hheld t.class_]
          exact h.lanes t.class_
        · rw [held_of_ne rfl hd, ← hheld d]
          exact h.lanes d
      case conserved =>
        have hlane := ids_setLane_sub t.class_ (ids_takeRunnable ht)
        have hold := h.conserved
        simp only [ids, hactive, Option.map_none, Option.toList_none, Multiset.coe_nil,
          add_zero] at hold
        simp only [ids, Option.map_some, Option.toList_some, Multiset.coe_singleton]
        rw [hlane, hold]
      case logged => exact h.logged
      case awaited =>
        intro d p hp
        rw [hawaiting] at hp
        exact h.awaited d p hp
      case settling =>
        intro f hf
        rw [hawaiting]
        exact h.settling f hf
      case keys => exact h.keys
      case oneInFlight => exact h.oneInFlight

/-- The slot of the popped transfer. -/
lemma slot_split (h : s.Lawful) (hd : s.Distinct) {t : RunnableTransfer QueuedTransfer}
    (ht : s.active = some t) : ∃ l₁ l₂, (s.ready.lanes t.class_).slots =
      l₁ ++ (t.slot, .sending) :: l₂ ∧ ∀ x ∈ l₁ ++ l₂, x.1 ≠ t.slot := by
  have hlane := h.lanes t.class_
  rw [held_of_active ht] at hlane
  exact hlane.slots_split (hd t.class_)

lemma admitFrame (h : s.Lawful) (hd : s.Distinct) (delivery : ℕ) :
    (s.admitFrame delivery).Lawful := by
  unfold OutboundWorker.admitFrame
  cases ht : s.active with
  | none => exact h
  | some t =>
    simp only []
    split
    · exact h
    · rename_i hfresh
      rw [not_or] at hfresh
      obtain ⟨hframes, hdelivery⟩ := hfresh
      have hframes := Nat.pos_of_ne_zero hframes
      set sent : QueuedTransfer := ⟨t.item.id, t.item.frames - 1⟩ with hsent
      obtain ⟨l₁, l₂, hslots, hne⟩ := h.slot_split hd ht
      have hlane := h.lanes t.class_
      rw [held_of_active ht] at hlane
      have hids : t.item.id < s.nextId := by
        refine h.lt_of_mem (Multiset.mem_add.2 (Or.inl (Multiset.mem_add.2 (Or.inr ?_))))
        simp [ht]
      -- the popped transfer has no frame in flight
      have hnew : t.item.id ∉ s.deliveries.map (·.id) := by
        intro hmem
        obtain ⟨f, hf, hid⟩ := List.mem_map.1 hmem
        rcases h.settling f hf with hw | hb
        · refine h.active_notMem_lane ht f.class_ ?_
          rw [← hid]
          exact mem_ids_of_awaiting hw
        · rw [hid] at hb
          exact h.active_notMem_handedBack ht hb
      have hawaiting : ∀ d p, p ∈ (((s.ready.recordFrameAdmitted t.class_).waitForDelivery delivery
          sent.remainder { t with item := sent }).lanes d).awaiting ↔
          (p = (delivery, t.item.id) ∧ d = t.class_) ∨ p ∈ (s.ready.lanes d).awaiting := by
        intro d p
        simp only [TransferQueues.waitForDelivery, TransferQueues.recordFrameAdmitted,
          TransferQueues.lanes_setLane, TransferQueues.lanes_advanceFairness]
        by_cases hdc : d = t.class_
        · subst hdc
          rw [Function.update_self, mem_awaiting_waitForDelivery hslots hne]
          simp [hsent]
        · rw [Function.update_of_ne hdc]
          simp [hdc]
      constructor
      case lanes =>
        intro d
        simp only [TransferQueues.waitForDelivery, TransferQueues.recordFrameAdmitted,
          TransferQueues.lanes_setLane, TransferQueues.lanes_advanceFairness,
          TransferQueues.window_setLane, TransferQueues.window_advanceFairness, held,
          Option.bind_none]
        rw [log, log_append]
        by_cases hdc : d = t.class_
        · subst hdc
          rw [Function.update_self, if_pos rfl]
          exact LaneLaw.waitForDelivery hlane (hd t.class_) (show sent.id = t.item.id from rfl)
            hframes delivery
        · rw [Function.update_of_ne hdc, if_neg hdc, List.append_nil, ← held_of_ne ht hdc]
          exact h.lanes d
      case conserved =>
        have hresume := ids_setLane t.class_ (q := s.ready.recordFrameAdmitted t.class_)
          (l := (s.ready.lanes t.class_).waitForDelivery t.slot delivery sent.remainder sent)
          (y := {sent.id}) (by
            rw [TransferQueues.recordFrameAdmitted, TransferQueues.lanes_advanceFairness]
            exact ids_resumeSlot hslots hne rfl)
        have hold := h.conserved
        simp only [ids, ht, Option.map_some, Option.toList_some, Multiset.coe_singleton] at hold
        simp only [ids, TransferQueues.waitForDelivery, Option.map_none, Option.toList_none,
          Multiset.coe_nil, add_zero]
        rw [← hold]
        simp only [TransferQueues.recordFrameAdmitted, TransferQueues.lanes_advanceFairness]
          at hresume ⊢
        rw [hresume]
      case logged =>
        intro x hx
        rcases List.mem_append.1 hx with hx | hx
        · exact h.logged x hx
        · rw [List.mem_singleton.1 hx]
          exact hids
      case awaited =>
        intro d p hp
        rcases (hawaiting d p).1 hp with ⟨rfl, rfl⟩ | hp
        · exact List.mem_append_right _ (List.mem_singleton_self _)
        · exact List.mem_append_left _ (h.awaited d p hp)
      case settling =>
        intro f hf
        rcases List.mem_append.1 hf with hf | hf
        · exact (h.settling f hf).imp_left fun hw => (hawaiting _ _).2 (Or.inr hw)
        · rw [List.mem_singleton.1 hf]
          exact Or.inl ((hawaiting _ _).2 (Or.inl ⟨rfl, rfl⟩))
      case keys =>
        rw [List.map_append, List.nodup_append]
        refine ⟨h.keys, List.nodup_singleton _, ?_⟩
        rintro k hk k' hk' rfl
        obtain ⟨f, hf, rfl⟩ := List.mem_map.1 hk
        have hkey := List.mem_singleton.1 hk'
        simp only [Prod.mk.injEq] at hkey
        refine hdelivery (List.any_eq_true.2 ⟨f, hf, ?_⟩)
        simp [hkey.1, hkey.2]
      case oneInFlight =>
        rw [List.map_append, List.nodup_append]
        refine ⟨h.oneInFlight, List.nodup_singleton _, ?_⟩
        rintro k hk k' hk' rfl
        rw [List.mem_singleton.1 hk'] at hk
        exact hnew hk

/-- The popped transfer ends, whatever its class is charged. -/
lemma finishTransfer (h : s.Lawful) (hd : s.Distinct) {t : RunnableTransfer QueuedTransfer}
    (ht : s.active = some t) {q : TransferQueues QueuedTransfer}
    (hlanes : q.lanes = s.ready.lanes) (hwindow : q.window = s.ready.window)
    (turns : List TransferClass) :
    Lawful { s with
      ready := q.finishTransfer t
      active := none
      turns := turns
      handedBack := s.handedBack ++ [t.item] } := by
  obtain ⟨l₁, l₂, hslots, hne⟩ := h.slot_split hd ht
  have hlane := h.lanes t.class_
  rw [held_of_active ht] at hlane
  have hawaiting : ∀ c, ((q.finishTransfer t).lanes c).awaiting = (s.ready.lanes c).awaiting := by
    intro c
    rw [TransferQueues.finishTransfer, hlanes, hwindow,
      awaiting_setLane t.class_ (by rw [hlanes]; exact awaiting_finish hslots hne _), hlanes]
  constructor
  case lanes =>
    intro c
    simp only [TransferQueues.finishTransfer, TransferQueues.lanes_setLane,
      TransferQueues.window_setLane, hlanes, hwindow, held, Option.bind_none]
    by_cases hc : c = t.class_
    · subst hc
      rw [Function.update_self]
      exact hlane.finish (hd t.class_)
    · rw [Function.update_of_ne hc, ← held_of_ne ht hc]
      exact h.lanes c
  case conserved =>
    have hfinish := ids_setLane (q := q) t.class_ (y := 0)
      (l := (s.ready.lanes t.class_).finish t.slot s.ready.window)
      (by rw [hlanes, ids_finish hslots hne, add_zero])
    have hold := h.conserved
    simp only [ids, ht, Option.map_some, Option.toList_some] at hold
    simp only [ids, TransferQueues.finishTransfer, hlanes, hwindow, Option.map_none,
      Option.toList_none, Multiset.coe_nil, add_zero, List.map_append, List.map_cons, List.map_nil,
      ← Multiset.coe_add] at hfinish ⊢
    rw [hfinish, ← hold]
    abel
  case logged => exact h.logged
  case awaited =>
    intro c p hp
    rw [hawaiting] at hp
    exact h.awaited c p hp
  case settling =>
    intro f hf
    rw [hawaiting]
    refine (h.settling f hf).imp_right fun hb => ?_
    rw [List.map_append]
    exact List.mem_append_left _ hb
  case keys => exact h.keys
  case oneInFlight => exact h.oneInFlight

lemma finish (h : s.Lawful) (hd : s.Distinct) : s.finish.Lawful := by
  unfold OutboundWorker.finish
  cases ht : s.active with
  | none => exact h
  | some t => exact h.finishTransfer hd ht rfl rfl s.turns

lemma fail (h : s.Lawful) (hd : s.Distinct) : s.fail.Lawful := by
  unfold OutboundWorker.fail
  cases ht : s.active with
  | none => exact h
  | some t =>
    exact h.finishTransfer hd ht (s.ready.lanes_advanceFairness t.class_)
      (s.ready.window_advanceFairness t.class_) _

/-- A settled delivery was the one its transfer waited for, and the others still wait. -/
lemma settle (h : s.Lawful) {f : FrameInFlight} {d₁ d₂ : List FrameInFlight}
    (hdeliveries : s.deliveries = d₁ ++ f :: d₂) {slot : ℕ} {item : QueuedTransfer}
    {lane' lane : TransferLane QueuedTransfer}
    (ht : (s.ready.lanes f.class_).takeWaiting f.delivery = some ((slot, item), lane'))
    (hlane : lane.awaiting = lane'.awaiting) :
    (∀ c, ∀ p ∈ ((s.ready.setLane f.class_ lane).lanes c).awaiting, ⟨c, p.1, p.2⟩ ∈ d₁ ++ d₂) ∧
      ∀ g ∈ d₁ ++ d₂, (g.delivery, g.id) ∈ ((s.ready.setLane f.class_ lane).lanes g.class_).awaiting
        ∨ g.id ∈ s.handedBack.map (·.id) := by
  have hkeys := h.keys
  rw [hdeliveries, List.map_append, List.map_cons, List.nodup_middle, List.nodup_cons,
    ← List.map_append] at hkeys
  have hsplit : ∀ g ∈ s.deliveries, g = f ∨ g ∈ d₁ ++ d₂ := by
    intro g hg
    rw [hdeliveries] at hg
    simp only [List.mem_append, List.mem_cons] at hg ⊢
    tauto
  have hother : ∀ g ∈ d₁ ++ d₂, g ∈ s.deliveries := by
    intro g hg
    rw [hdeliveries]
    simp only [List.mem_append, List.mem_cons] at hg ⊢
    tauto
  have hkey : ∀ g ∈ d₁ ++ d₂, (g.class_, g.delivery) ≠ (f.class_, f.delivery) :=
    fun g hg heq => hkeys.1 (List.mem_map.2 ⟨g, hg, heq⟩)
  -- only `f` has the key of `f`
  have hid : ∀ n, (f.delivery, n) ∈ (s.ready.lanes f.class_).awaiting → n = f.id := by
    intro n hn
    rcases hsplit _ (h.awaited _ _ hn) with heq | hmem
    · exact congrArg FrameInFlight.id heq
    · exact absurd rfl (hkey ⟨f.class_, f.delivery, n⟩ hmem)
  have hitem : item.id = f.id := hid _ ((mem_awaiting_takeWaiting ht _).2 (Or.inl rfl))
  have hgone : f.id ∉ lane'.ids := by
    have hnodup := Multiset.coe_nodup.2 (h.nodup_lane f.class_)
    rw [ids_takeWaiting ht, hitem, Multiset.nodup_add] at hnodup
    exact fun hmem => Multiset.disjoint_left.1 hnodup.2.2 (Multiset.mem_coe.2 hmem)
      (Multiset.mem_singleton_self _)
  constructor
  · intro c p hp
    rw [TransferQueues.lanes_setLane] at hp
    by_cases hc : c = f.class_
    · subst hc
      rw [Function.update_self, hlane] at hp
      have hold := (mem_awaiting_takeWaiting ht p).2 (Or.inr hp)
      rcases hsplit _ (h.awaited _ p hold) with heq | hmem
      · refine absurd (mem_ids_of_awaiting hp) ?_
        rw [show p.2 = f.id from congrArg FrameInFlight.id heq]
        exact hgone
      · exact hmem
    · rw [Function.update_of_ne hc] at hp
      rcases hsplit _ (h.awaited c p hp) with heq | hmem
      · exact absurd (congrArg FrameInFlight.class_ heq) hc
      · exact hmem
  · intro g hg
    rcases h.settling g (hother g hg) with hw | hb
    · left
      rw [TransferQueues.lanes_setLane]
      by_cases hc : g.class_ = f.class_
      · rw [hc] at hw
        rw [hc, Function.update_self, hlane]
        rcases (mem_awaiting_takeWaiting ht _).1 hw with heq | hw
        · refine absurd ?_ (hkey g hg)
          rw [hc, (Prod.mk.inj heq).1]
        · exact hw
      · rw [Function.update_of_ne hc]
        exact hw
    · exact Or.inr hb

/-- A delivery nothing waits for is forgotten. -/
lemma forget (h : s.Lawful) {f : FrameInFlight} {d₁ d₂ : List FrameInFlight}
    (hdeliveries : s.deliveries = d₁ ++ f :: d₂)
    (ht : (s.ready.lanes f.class_).takeWaiting f.delivery = none) :
    Lawful { s with deliveries := d₁ ++ d₂ } := by
  have hsublist : d₁ ++ d₂ <+ s.deliveries := by
    rw [hdeliveries]
    exact (List.sublist_cons_self f d₂).append_left d₁
  constructor
  case lanes => exact h.lanes
  case conserved => exact h.conserved
  case logged => exact h.logged
  case awaited =>
    intro c p hp
    have hmem := h.awaited c p hp
    rw [hdeliveries] at hmem
    simp only [List.mem_append, List.mem_cons] at hmem ⊢
    rcases hmem with hmem | hmem | hmem
    · exact Or.inl hmem
    · obtain rfl : c = f.class_ := congrArg FrameInFlight.class_ hmem
      exact absurd (congrArg FrameInFlight.delivery hmem) (notMem_awaiting ht hp)
    · exact Or.inr hmem
  case settling => exact fun g hg => h.settling g (hsublist.subset hg)
  case keys => exact h.keys.sublist (hsublist.map _)
  case oneInFlight => exact h.oneInFlight.sublist (hsublist.map _)

end Lawful

lemma eraseIdx_of_getElem? {α : Type*} {l : List α} {index : ℕ} {a : α}
    (h : l[index]? = some a) : ∃ l₁ l₂, l = l₁ ++ a :: l₂ ∧ l.eraseIdx index = l₁ ++ l₂ := by
  obtain ⟨hlt, rfl⟩ := List.getElem?_eq_some_iff.1 h
  refine ⟨l.take index, l.drop (index + 1), ?_, List.eraseIdx_eq_take_drop_succ _ _⟩
  rw [List.cons_getElem_drop_succ, List.take_append_drop]

namespace Lawful

lemma delivered (h : s.Lawful) (hd : s.Distinct) (index : ℕ) : (s.delivered index).Lawful := by
  unfold OutboundWorker.delivered
  cases hf : s.deliveries[index]? with
  | none => exact h
  | some f =>
    obtain ⟨d₁, d₂, hdeliveries, herase⟩ := eraseIdx_of_getElem? hf
    have hsublist : d₁ ++ d₂ <+ s.deliveries := herase ▸ List.eraseIdx_sublist _ _
    simp only [herase]
    cases hw : s.ready.takeWaiting f.class_ f.delivery with
    | none => exact h.forget hdeliveries (Option.map_eq_none_iff.1 hw)
    | some taken =>
      obtain ⟨t, ready⟩ := taken
      obtain ⟨hclass, lane', ht, rfl⟩ := TransferQueues.takeWaiting_some hw
      obtain ⟨l₁, l₂, hslots, hne⟩ := takeWaiting_split (hd f.class_) ht
      have hawaiting := awaiting_makeRunnable (t := t.item) hslots hne
      obtain ⟨hawaited, hsettling⟩ := h.settle hdeliveries ht hawaiting
      simp only [TransferQueues.makeRunnable, hclass, TransferQueues.lanes_setLane,
        Function.update_self, TransferQueues.setLane_setLane]
      constructor
      case lanes =>
        refine (forall_setLane (P := fun d lane => LaneLaw s.ready.window (s.log d) (s.held d)
          lane)).2 ⟨(h.lanes f.class_).delivered (hd f.class_) ht, fun d _ => h.lanes d⟩
      case conserved =>
        have hresume := ids_setLane (q := s.ready) f.class_ (y := 0)
          (l := lane'.makeRunnable t.slot t.item) (by
            rw [add_zero, ids_takeWaiting ht]
            exact ids_resumeSlot hslots hne rfl)
        simp only [ids, hresume, add_zero]
        exact h.conserved
      case logged => exact h.logged
      case awaited => exact hawaited
      case settling => exact hsettling
      case keys => exact h.keys.sublist (hsublist.map _)
      case oneInFlight => exact h.oneInFlight.sublist (hsublist.map _)

lemma terminated (h : s.Lawful) (hd : s.Distinct) (index : ℕ) : (s.terminated index).Lawful := by
  unfold OutboundWorker.terminated
  cases hf : s.deliveries[index]? with
  | none => exact h
  | some f =>
    obtain ⟨d₁, d₂, hdeliveries, herase⟩ := eraseIdx_of_getElem? hf
    have hsublist : d₁ ++ d₂ <+ s.deliveries := herase ▸ List.eraseIdx_sublist _ _
    simp only [herase]
    cases hw : s.ready.takeWaiting f.class_ f.delivery with
    | none => exact h.forget hdeliveries (Option.map_eq_none_iff.1 hw)
    | some taken =>
      obtain ⟨t, ready⟩ := taken
      obtain ⟨hclass, lane', ht, rfl⟩ := TransferQueues.takeWaiting_some hw
      obtain ⟨l₁, l₂, hslots, hne⟩ := takeWaiting_split (hd f.class_) ht
      have hawaiting := awaiting_finish hslots hne s.ready.window
      obtain ⟨hawaited, hsettling⟩ := h.settle hdeliveries ht hawaiting
      simp only [TransferQueues.finishTransfer, hclass, TransferQueues.lanes_setLane,
        Function.update_self, TransferQueues.setLane_setLane, TransferQueues.window_setLane]
      constructor
      case lanes =>
        refine (forall_setLane (P := fun d lane => LaneLaw s.ready.window (s.log d) (s.held d)
          lane)).2 ⟨(h.lanes f.class_).terminated (hd f.class_) ht, fun d _ => h.lanes d⟩
      case conserved =>
        have hfinish := ids_setLane_sub (q := s.ready) f.class_
          (l := lane'.finish t.slot s.ready.window) (y := {t.item.id})
          (by rw [ids_finish hslots hne, ids_takeWaiting ht])
        have hold := h.conserved
        simp only [ids, ← hfinish] at hold
        simp only [ids, List.map_append, List.map_cons, List.map_nil, ← Multiset.coe_add,
          Multiset.coe_singleton]
        rw [← hold]
        abel
      case logged => exact h.logged
      case awaited => exact hawaited
      case settling =>
        intro g hg
        refine (hsettling g hg).imp_right fun hb => ?_
        rw [List.map_append]
        exact List.mem_append_left _ hb
      case keys => exact h.keys.sublist (hsublist.map _)
      case oneInFlight => exact h.oneInFlight.sublist (hsublist.map _)

lemma cancel (h : s.Lawful) (p : QueuedTransfer → Bool) : (s.cancel p).Lawful := by
  constructor
  case lanes => exact fun c => (h.lanes c).removeReadyWhere p
  case conserved =>
    have hsplit := PerLane.flatMap_add
      (fun c => @ids_removeReadyWhere (s.ready.lanes c) p s.ready.window) classes
    have hold := h.conserved
    simp only [ids, hsplit] at hold
    simp only [ids, OutboundWorker.cancel, TransferQueues.removeReadyWhere, List.map_append,
      List.map_flatMap, ← Multiset.coe_add]
    rw [← hold]
    abel
  case logged => exact h.logged
  case awaited =>
    intro c t ht
    refine h.awaited c t ?_
    rw [← awaiting_removeReadyWhere p s.ready.window]
    exact ht
  case settling =>
    intro f hf
    simp only [OutboundWorker.cancel, TransferQueues.removeReadyWhere, awaiting_removeReadyWhere,
      List.map_append, List.mem_append]
    exact (h.settling f hf).imp_right Or.inl
  case keys => exact h.keys
  case oneInFlight => exact h.oneInFlight

lemma shutdown (h : s.Lawful) : s.shutdown.Lawful := by
  constructor
  case lanes =>
    intro c
    exact (h.lanes c).drainTransfers
  case conserved =>
    have hempty : (classes.flatMap fun c => ((s.ready.lanes c).drainTransfers.2).ids) = [] := by
      simp [TransferLane.drainTransfers, TransferLane.ids, TransferLane.items]
    have hold := h.conserved
    simp only [ids] at hold
    simp only [ids, OutboundWorker.shutdown, TransferQueues.drainTransfers, hempty,
      Option.map_none, Option.toList_none, List.map_append, List.map_flatMap, ← Multiset.coe_add]
    rw [← hold]
    have hactive : (s.active.map RunnableTransfer.item).toList.map (·.id) =
        (s.active.map (·.item.id)).toList := by
      cases s.active <;> rfl
    rw [hactive]
    simp only [TransferLane.drainTransfers, TransferLane.ids, TransferLane.items,
      Multiset.coe_nil]
    abel
  case logged => exact h.logged
  case awaited =>
    intro c p hp
    simp [OutboundWorker.shutdown, TransferQueues.drainTransfers, TransferLane.drainTransfers,
      awaiting] at hp
  case settling =>
    intro f hf
    right
    simp only [OutboundWorker.shutdown, TransferQueues.drainTransfers, List.map_append,
      List.map_flatMap, List.mem_append]
    rcases h.settling f hf with hw | hb
    · exact Or.inr (mem_ids_lane (mem_ids_of_awaiting hw))
    · exact Or.inl (Or.inl hb)
  case keys => exact h.keys
  case oneInFlight => exact h.oneInFlight

/-- Every operation keeps the law while the lanes' tokens are distinct. -/
lemma step (h : s.Lawful) (hd : s.Distinct) (op : WorkerStep) : (s.step op).Lawful := by
  cases op with
  | push c frames => exact h.enqueueTransfer c frames
  | pop credited => exact h.pop credited
  | admitFrame delivery => exact h.admitFrame hd delivery
  | finish => exact h.finish hd
  | fail => exact h.fail hd
  | delivered index => exact h.delivered hd index
  | terminated index => exact h.terminated hd index
  | cancel p => exact h.cancel p
  | shutdown => exact h.shutdown

end Lawful

end OutboundWorker

end Rings.Outbound
