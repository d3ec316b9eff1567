import Rings.Did
import Rings.WaitingLine

/-!
The fair wait queue for a shared capacity.

Waiters queue in the order they arrive, and only the front one attempts. A release of capacity arms
the front and calls its waker, and so does the departure of the waiter before it; a failed attempt
uses the arming up. Whoever must be woken is armed, or a call that arms it is still owed.
-/

namespace Rings.FairWait

open WaitingLine

abbrev Waker := ℕ

/-! ### The budget of waiters -/

structure FairWaitBudget where
  waiters : ℕ
  cost : ℕ
  maxWaiters : ℕ
  maxCost : ℕ

namespace FairWaitBudget

def tryAcquire (b : FairWaitBudget) (cost : ℕ) : Option FairWaitBudget :=
  match checkedAdd usizeMax b.waiters 1, checkedAdd usizeMax b.cost cost with
  | some nextWaiters, some nextCost =>
    if nextWaiters > b.maxWaiters ∨ nextCost > b.maxCost then none
    else some { b with waiters := nextWaiters, cost := nextCost }
  | _, _ => none

def release (b : FairWaitBudget) (cost : ℕ) : FairWaitBudget :=
  { b with waiters := b.waiters - 1, cost := b.cost - cost }

end FairWaitBudget

/-! ### The queue -/

/-- A queued waiter. Its `ticket` is its place among all that ever queued, `request` what it queued
for or last attempted; `due` says that it became front, or saw capacity released, after its last
failed attempt, and `armedAt` how many wakers had been called when it was last armed. -/
structure FairWaiterEntry (R : Type*) where
  id : ℕ
  waker : Option Waker
  armed : Bool
  cost : ℕ
  ticket : ℕ
  request : R
  due : Bool
  armedAt : ℕ

section Queue

variable {R : Type*}

/-- Arm the front waiter at the instant `now`, with the waker to call. -/
def armFront (now : ℕ) : List (FairWaiterEntry R) → List (FairWaiterEntry R) × Option Waker
  | [] => ([], none)
  | waiter :: queue =>
    if waiter.armed then (waiter :: queue, none)
    else ({ waiter with armed := true, armedAt := now } :: queue, waiter.waker)

/-- The front waiter has just become so. -/
def promote : List (FairWaiterEntry R) → List (FairWaiterEntry R)
  | [] => []
  | waiter :: queue => { waiter with due := true } :: queue

end Queue

structure FairWaiter where
  id : ℕ
  active : Bool

/-- The queue with the waiters that ever queued on it, the capacity they wait for, the calls of
`wakeFront` that releases still owe, the wakers called so far and what happened, where an admission
that never queued is `unqueued`. -/
structure FairWaitQueue (C R : Type*) where
  nextId : ℕ
  queue : List (FairWaiterEntry R)
  budget : FairWaitBudget
  departures : ℕ
  waiters : ℕ → FairWaiter
  arrived : ℕ
  capacity : C
  owed : ℕ
  woken : List Waker
  events : List LineEvent

/-- A call, or a release of capacity, which owes a call of `wakeFront`. Other queues share the
budget. -/
inductive WaitCall (C R : Type*)
  | admitOrWait (r : R) (cost : ℕ)
  | tryAdmitUnqueued (r : R)
  | poll (ticket : ℕ) (waker : Waker) (r : R)
  | cancel (ticket : ℕ)
  | wakeFront
  | release (capacity : C)
  | others (waiters cost : ℕ)

namespace FairWaitQueue

variable {C R : Type*}

def withBudget (budget : FairWaitBudget) (capacity : C) : FairWaitQueue C R :=
  ⟨0, [], budget, 0, fun _ => ⟨0, false⟩, 0, capacity, 0, [], []⟩

variable (w : FairWaitQueue C R)

/-- Arm the front of `queue` and call its waker. -/
def wakeWith (queue : List (FairWaiterEntry R)) : FairWaitQueue C R :=
  let armed := armFront w.woken.length queue
  { w with queue := armed.1, woken := w.woken ++ armed.2.toList }

def enqueue (budget : FairWaitBudget) (r : R) (cost : ℕ) : FairWaitQueue C R :=
  { w with
    nextId := (w.nextId + 1) % 2 ^ 64
    queue := w.queue ++ [⟨w.nextId, none, false, cost, w.arrived, r, false, 0⟩]
    budget := budget
    waiters := Function.update w.waiters w.arrived ⟨w.nextId, true⟩
    arrived := w.arrived + 1
    events := w.events ++ [.queued w.arrived] }

variable (attempt : R → C → Option C)

def admitOrWait (r : R) (cost : ℕ) : FairWaitQueue C R :=
  let unqueued := if w.queue.isEmpty then attempt r w.capacity else none
  match unqueued with
  | some capacity => { w with capacity := capacity, events := w.events ++ [.unqueued] }
  | none =>
    match w.budget.tryAcquire cost with
    | none => w
    | some budget => w.enqueue budget r cost

def tryAdmitUnqueued (r : R) : FairWaitQueue C R :=
  if !w.queue.isEmpty then w
  else
    match attempt r w.capacity with
    | some capacity => { w with capacity := capacity, events := w.events ++ [.unqueued] }
    | none => w

def deactivate (ticket : ℕ) : FairWaitQueue C R :=
  { w with waiters := Function.update w.waiters ticket { w.waiters ticket with active := false } }

def pollFront (ticket : ℕ) (r : R) (waiter : FairWaiterEntry R)
    (rest : List (FairWaiterEntry R)) :
    FairWaitQueue C R :=
  match attempt r w.capacity with
  | none => { w with queue := { waiter with armed := false, request := r, due := false } :: rest }
  | some capacity =>
    wakeWith { w.deactivate ticket with
      capacity := capacity
      budget := w.budget.release waiter.cost
      departures := w.departures + 1
      events := w.events ++ [.admitted ticket] } (promote rest)

def poll (ticket : ℕ) (waker : Waker) (r : R) : FairWaitQueue C R :=
  match w.queue.findIdx? fun waiter => waiter.id = (w.waiters ticket).id with
  | none => w
  | some position =>
    match position, w.queue.modify position ({ · with waker := some waker }) with
    | 0, waiter :: rest =>
      if waiter.armed then w.pollFront attempt ticket r waiter rest
      else { w with queue := waiter :: rest }
    | _, queue => { w with queue := queue }

/-- A waiter that goes leaves its place, its permit and its end behind. -/
def depart (ticket : ℕ) (waiter : FairWaiterEntry R) : FairWaitQueue C R :=
  { w.deactivate ticket with
    budget := w.budget.release waiter.cost
    departures := w.departures + 1
    events := w.events ++ [.cancelled ticket] }

/-- `cancel`, which a dropped waiter does as well. -/
def cancel (ticket : ℕ) : FairWaitQueue C R :=
  if !(w.waiters ticket).active then w
  else
    match w.queue.findIdx? fun waiter => waiter.id = (w.waiters ticket).id with
    | none => w.deactivate ticket
    | some 0 =>
      match w.queue with
      | [] => w.deactivate ticket
      | waiter :: rest => (w.depart ticket waiter).wakeWith (promote rest)
    | some (position + 1) =>
      match w.queue[position + 1]? with
      | none => w.deactivate ticket
      | some waiter => { w.depart ticket waiter with queue := w.queue.eraseIdx (position + 1) }

def step : WaitCall C R → FairWaitQueue C R
  | .admitOrWait r cost => w.admitOrWait attempt r cost
  | .tryAdmitUnqueued r => w.tryAdmitUnqueued attempt r
  | .poll ticket waker r => if ticket < w.arrived then w.poll attempt ticket waker r else w
  | .cancel ticket => if ticket < w.arrived then w.cancel ticket else w
  | .wakeFront => { w.wakeWith w.queue with owed := w.owed - 1 }
  | .release capacity =>
    { w with
      capacity := capacity
      owed := w.owed + 1
      queue := w.queue.map fun waiter => { waiter with due := true } }
  | .others waiters cost => { w with budget := { w.budget with waiters := waiters, cost := cost } }

def run (calls : List (WaitCall C R)) : FairWaitQueue C R := calls.foldl (step · attempt) w

/-! ### What a call does -/

theorem admitOrWait_cases (r : R) (cost : ℕ) :
    (w.queue = [] ∧ ∃ capacity, w.admitOrWait attempt r cost =
      { w with capacity := capacity, events := w.events ++ [.unqueued] }) ∨
    w.admitOrWait attempt r cost = w ∨
    ∃ budget, (w.queue = [] → attempt r w.capacity = none) ∧
      w.admitOrWait attempt r cost = w.enqueue budget r cost := by
  simp only [admitOrWait, List.isEmpty_iff]
  cases hq : (if w.queue = [] then attempt r w.capacity else none) with
  | some capacity =>
    by_cases hnil : w.queue = []
    · exact .inl ⟨hnil, capacity, rfl⟩
    · simp [hnil] at hq
  | none =>
    have hnone : w.queue = [] → attempt r w.capacity = none := by
      intro hnil
      simpa [hnil] using hq
    cases w.budget.tryAcquire cost with
    | none => exact .inr (.inl rfl)
    | some budget => exact .inr (.inr ⟨budget, hnone, rfl⟩)

theorem tryAdmitUnqueued_cases (r : R) :
    (w.queue = [] ∧ ∃ capacity, w.tryAdmitUnqueued attempt r =
      { w with capacity := capacity, events := w.events ++ [.unqueued] }) ∨
    w.tryAdmitUnqueued attempt r = w := by
  by_cases hnil : w.queue = []
  · cases ha : attempt r w.capacity with
    | none => right; simp [tryAdmitUnqueued, hnil, ha]
    | some capacity => left; simp [tryAdmitUnqueued, hnil, ha]
  · right
    simp [tryAdmitUnqueued, hnil]

theorem poll_cases (ticket : ℕ) (waker : Waker) (r : R) :
    w.poll attempt ticket waker r = w ∨
    (∃ i, w.poll attempt ticket waker r =
      { w with queue := w.queue.modify (i + 1) ({ · with waker := some waker }) }) ∨
    ∃ e rest, w.queue = e :: rest ∧ e.id = (w.waiters ticket).id ∧
      w.poll attempt ticket waker r =
        if e.armed then w.pollFront attempt ticket r { e with waker := some waker } rest
        else { w with queue := { e with waker := some waker } :: rest } := by
  unfold poll
  cases hi : w.queue.findIdx? fun e => e.id = (w.waiters ticket).id with
  | none => exact .inl rfl
  | some i =>
    obtain ⟨hlt, hid, -⟩ := List.findIdx?_eq_some_iff_getElem.1 hi
    cases i with
    | succ i => exact .inr (.inl ⟨i, rfl⟩)
    | zero =>
      obtain ⟨e, rest, hq⟩ := List.exists_cons_of_length_pos hlt
      simp only [hq, List.getElem_cons_zero, decide_eq_true_eq] at hid
      refine .inr (.inr ⟨e, rest, hq, hid, ?_⟩)
      simp [hq]

omit attempt in
theorem cancel_cases (ticket : ℕ) :
    w.cancel ticket = w ∨ w.cancel ticket = w.deactivate ticket ∨
    (∃ e rest, w.queue = e :: rest ∧ e.id = (w.waiters ticket).id ∧
      w.cancel ticket = (w.depart ticket e).wakeWith (promote rest)) ∨
    ∃ i, ∃ h : i + 1 < w.queue.length, w.queue[i + 1].id = (w.waiters ticket).id ∧
      w.cancel ticket =
        { w.depart ticket w.queue[i + 1] with queue := w.queue.eraseIdx (i + 1) } := by
  unfold cancel
  split
  · exact .inl rfl
  · cases hi : w.queue.findIdx? fun e => e.id = (w.waiters ticket).id with
    | none => exact .inr (.inl rfl)
    | some i =>
      obtain ⟨hlt, hid, -⟩ := List.findIdx?_eq_some_iff_getElem.1 hi
      cases i with
      | succ i =>
        refine .inr (.inr (.inr ⟨i, hlt, by simpa using hid, ?_⟩))
        simp [List.getElem?_eq_getElem hlt]
      | zero =>
        obtain ⟨e, rest, hq⟩ := List.exists_cons_of_length_pos hlt
        simp only [hq, List.getElem_cons_zero, decide_eq_true_eq] at hid
        refine .inr (.inr (.inl ⟨e, rest, hq, hid, ?_⟩))
        simp [hq]

/-! ### Arrival order -/

/-- The tickets in line with what happened to them. -/
def line (w : FairWaitQueue C R) : Line := ⟨w.arrived, w.queue.map (·.ticket), w.events⟩

/-- No two waiters share an id. -/
structure Named (w : FairWaitQueue C R) : Prop where
  nextId : w.nextId = w.arrived % 2 ^ 64
  ends : ∀ t < w.arrived, (w.waiters t).id = t
  ids : w.queue.map (·.id) = w.queue.map (·.ticket)

theorem map_modify_eq {α β : Type*} {f : α → β} {g : α → α} (hg : ∀ a, f (g a) = f a)
    (l : List α) (i : ℕ) : (l.modify i g).map f = l.map f := by
  refine List.ext_getElem? fun n => ?_
  simp only [List.getElem?_map, List.getElem?_modify]
  cases l[n]? with
  | none => rfl
  | some a => split <;> simp [hg]

@[simp] theorem waked_ids (queue : List (FairWaiterEntry R)) (i : ℕ) (waker : Waker) :
    (queue.modify i ({ · with waker := some waker })).map (·.id) = queue.map (·.id) :=
  map_modify_eq (by intro e; rfl) queue i

@[simp] theorem waked_tickets (queue : List (FairWaiterEntry R)) (i : ℕ) (waker : Waker) :
    (queue.modify i ({ · with waker := some waker })).map (·.ticket) = queue.map (·.ticket) :=
  map_modify_eq (by intro e; rfl) queue i

@[simp] theorem waked_armed (queue : List (FairWaiterEntry R)) (i : ℕ) (waker : Waker) :
    (queue.modify i ({ · with waker := some waker })).map (·.armed) = queue.map (·.armed) :=
  map_modify_eq (by intro e; rfl) queue i

@[simp] theorem armFront_tickets (now : ℕ) (queue : List (FairWaiterEntry R)) :
    (armFront now queue).1.map (·.ticket) = queue.map (·.ticket) := by
  cases queue with
  | nil => rfl
  | cons e rest => simp only [armFront]; split <;> simp

@[simp] theorem armFront_ids (now : ℕ) (queue : List (FairWaiterEntry R)) :
    (armFront now queue).1.map (·.id) = queue.map (·.id) := by
  cases queue with
  | nil => rfl
  | cons e rest => simp only [armFront]; split <;> simp

@[simp] theorem promote_tickets (queue : List (FairWaiterEntry R)) :
    (promote queue).map (·.ticket) = queue.map (·.ticket) := by
  cases queue <;> simp [promote]

@[simp] theorem promote_ids (queue : List (FairWaiterEntry R)) :
    (promote queue).map (·.id) = queue.map (·.id) := by
  cases queue <;> simp [promote]

variable {w} {attempt}

@[simp] theorem deactivate_id (ticket t : ℕ) :
    ((w.deactivate ticket).waiters t).id = (w.waiters t).id := by
  simp only [deactivate, Function.update_apply]
  split
  · next h => rw [h]
  · rfl

theorem Named.of_eq {w' : FairWaitQueue C R} (h : w.Named) (hn : w'.nextId = w.nextId)
    (ha : w'.arrived = w.arrived) (hw : ∀ t, (w'.waiters t).id = (w.waiters t).id)
    (hids : w'.queue.map (·.id) = w'.queue.map (·.ticket)) : w'.Named where
  nextId := by rw [hn, ha, h.nextId]
  ends t ht := by rw [hw, h.ends t (ha ▸ ht)]
  ids := hids

theorem Named.enqueue (h : w.Named) (hlt : w.arrived < 2 ^ 64) (budget : FairWaitBudget) (r : R)
    (cost : ℕ) : (w.enqueue budget r cost).Named := by
  have hid : w.nextId = w.arrived := by rw [h.nextId, Nat.mod_eq_of_lt hlt]
  refine ⟨?_, fun t ht => ?_, ?_⟩
  · simp [FairWaitQueue.enqueue, hid]
  · simp only [FairWaitQueue.enqueue] at ht ⊢
    rcases Nat.lt_succ_iff_lt_or_eq.1 ht with ht | rfl
    · rw [Function.update_of_ne ht.ne, h.ends t ht]
    · rw [Function.update_self, hid]
  · simp [FairWaitQueue.enqueue, h.ids, hid]

theorem Named.front {e : FairWaiterEntry R} {rest : List (FairWaiterEntry R)} {ticket : ℕ}
    (h : w.Named) (ht : ticket < w.arrived) (hq : w.queue = e :: rest)
    (hid : e.id = (w.waiters ticket).id) :
    e.ticket = ticket ∧ e.id = e.ticket ∧ rest.map (·.id) = rest.map (·.ticket) := by
  have hids := h.ids
  rw [hq, List.map_cons, List.map_cons, List.cons.injEq] at hids
  exact ⟨by rw [← hids.1, hid, h.ends ticket ht], hids⟩

theorem Named.admitOrWait (h : w.Named) (r : R) (cost : ℕ)
    (hle : (w.admitOrWait attempt r cost).arrived ≤ 2 ^ 64) :
    (w.admitOrWait attempt r cost).Named ∧
    Line.Step w.line (w.admitOrWait attempt r cost).line := by
  obtain ⟨hnil, capacity, heq⟩ | heq | ⟨budget, -, heq⟩ := w.admitOrWait_cases attempt r cost
  · rw [heq]
    exact ⟨h.of_eq rfl rfl (fun _ => rfl) h.ids, Line.Step.pass (by simp [line, hnil])⟩
  · rw [heq]
    exact ⟨h, Line.Step.stay⟩
  · rw [heq] at hle ⊢
    refine ⟨h.enqueue hle budget r cost, ?_⟩
    simp only [line, FairWaitQueue.enqueue, List.map_append, List.map_cons, List.map_nil]
    exact Line.Step.queue

theorem Named.poll (h : w.Named) {ticket : ℕ} (ht : ticket < w.arrived) (waker : Waker) (r : R) :
    (w.poll attempt ticket waker r).Named ∧
    Line.Step w.line (w.poll attempt ticket waker r).line := by
  obtain heq | ⟨i, heq⟩ | ⟨e, rest, hq, hid, heq⟩ := w.poll_cases attempt ticket waker r
  · rw [heq]
    exact ⟨h, Line.Step.stay⟩
  · rw [heq]
    refine ⟨h.of_eq rfl rfl (fun _ => rfl) ?_, ?_⟩
    · simp [h.ids]
    · simp only [line, waked_tickets]
      exact Line.Step.stay
  · obtain ⟨hticket, hid, hrest⟩ := h.front ht hq hid
    rw [heq]
    split
    · unfold pollFront
      split
      · refine ⟨h.of_eq rfl rfl (fun _ => rfl) (by simp [hid, hrest]), ?_⟩
        have : w.line = ⟨w.arrived, e.ticket :: rest.map (·.ticket), w.events⟩ := by
          simp [line, hq]
        rw [this]
        exact Line.Step.stay
      · refine ⟨h.of_eq rfl rfl (fun t => deactivate_id ticket t) (by simp [wakeWith, hrest]), ?_⟩
        have := Line.Step.serve (l := w.line) ticket (rest.map (·.ticket))
          (by simp [line, hq, hticket])
        simpa only [line, wakeWith, deactivate, armFront_tickets, promote_tickets] using this
    · refine ⟨h.of_eq rfl rfl (fun _ => rfl) (by simp [hid, hrest]), ?_⟩
      have : w.line = ⟨w.arrived, e.ticket :: rest.map (·.ticket), w.events⟩ := by
        simp [line, hq]
      rw [this]
      exact Line.Step.stay

theorem Named.cancel (h : w.Named) {ticket : ℕ} (ht : ticket < w.arrived) :
    (w.cancel ticket).Named ∧ Line.Step w.line (w.cancel ticket).line := by
  obtain heq | heq | ⟨e, rest, hq, hid, heq⟩ | ⟨i, hi, hid, heq⟩ := w.cancel_cases ticket
  · rw [heq]
    exact ⟨h, Line.Step.stay⟩
  · rw [heq]
    exact ⟨h.of_eq rfl rfl (fun t => deactivate_id ticket t) h.ids, Line.Step.stay⟩
  · obtain ⟨hticket, -, hrest⟩ := h.front ht hq hid
    rw [heq]
    refine ⟨h.of_eq rfl rfl (fun t => deactivate_id ticket t) (by simp [wakeWith, hrest]), ?_⟩
    have := Line.Step.leave (l := w.line) 0 (by simp [line, hq])
    simpa [line, wakeWith, depart, deactivate, hq, hticket] using this
  · have hids : w.queue[i + 1].id = w.queue[i + 1].ticket := by
      have := congrArg (·[i + 1]?) h.ids
      simpa [List.getElem?_eq_getElem hi] using this
    have hticket : w.queue[i + 1].ticket = ticket := by rw [← hids, hid, h.ends ticket ht]
    rw [heq]
    refine ⟨h.of_eq rfl rfl (fun t => deactivate_id ticket t) ?_, ?_⟩
    · simp only [← List.eraseIdx_map, h.ids]
    · have := Line.Step.leave (l := w.line) (i + 1) (by simpa [line] using hi)
      simpa [line, depart, deactivate, hticket, List.eraseIdx_map] using this

theorem Named.step (h : w.Named) (c : WaitCall C R) (hle : (w.step attempt c).arrived ≤ 2 ^ 64) :
    (w.step attempt c).Named ∧ Line.Step w.line (w.step attempt c).line := by
  cases c with
  | admitOrWait r cost => exact h.admitOrWait r cost hle
  | tryAdmitUnqueued r =>
    change (w.tryAdmitUnqueued attempt r).Named ∧
      Line.Step w.line (w.tryAdmitUnqueued attempt r).line
    obtain ⟨hnil, capacity, heq⟩ | heq := w.tryAdmitUnqueued_cases attempt r
    · rw [heq]
      exact ⟨h.of_eq rfl rfl (fun _ => rfl) h.ids, Line.Step.pass (by simp [line, hnil])⟩
    · rw [heq]
      exact ⟨h, Line.Step.stay⟩
  | poll ticket waker r =>
    simp only [FairWaitQueue.step]
    split
    · next ht => exact h.poll ht waker r
    · exact ⟨h, Line.Step.stay⟩
  | cancel ticket =>
    simp only [FairWaitQueue.step]
    split
    · next ht => exact h.cancel ht
    · exact ⟨h, Line.Step.stay⟩
  | wakeFront =>
    refine ⟨h.of_eq rfl rfl (fun _ => rfl) (by simp [FairWaitQueue.step, wakeWith, h.ids]), ?_⟩
    simp only [line, FairWaitQueue.step, wakeWith, armFront_tickets]
    exact Line.Step.stay
  | release capacity =>
    refine ⟨h.of_eq rfl rfl (fun _ => rfl) ?_, ?_⟩
    · simpa [FairWaitQueue.step, Function.comp_def] using h.ids
    · simp only [line, FairWaitQueue.step, List.map_map, Function.comp_def]
      exact Line.Step.stay
  | others waiters cost => exact ⟨h.of_eq rfl rfl (fun _ => rfl) h.ids, Line.Step.stay⟩

theorem arrived_le_step (c : WaitCall C R) : w.arrived ≤ (w.step attempt c).arrived := by
  cases c with
  | admitOrWait r cost =>
    change w.arrived ≤ (w.admitOrWait attempt r cost).arrived
    obtain ⟨-, capacity, heq⟩ | heq | ⟨budget, -, heq⟩ := w.admitOrWait_cases attempt r cost <;>
      simp [heq, FairWaitQueue.enqueue]
  | tryAdmitUnqueued r =>
    change w.arrived ≤ (w.tryAdmitUnqueued attempt r).arrived
    obtain ⟨-, capacity, heq⟩ | heq := w.tryAdmitUnqueued_cases attempt r <;> simp [heq]
  | poll ticket waker r =>
    simp only [step]
    split
    · obtain heq | ⟨i, heq⟩ | ⟨e, rest, -, -, heq⟩ := w.poll_cases attempt ticket waker r
      · rw [heq]
      · rw [heq]
      · rw [heq]
        split
        · unfold pollFront
          split <;> exact le_rfl
        · exact le_rfl
    · exact le_rfl
  | cancel ticket =>
    simp only [step]
    split
    · obtain heq | heq | ⟨e, rest, -, -, heq⟩ | ⟨i, hi, -, heq⟩ := w.cancel_cases ticket <;>
        rw [heq] <;> exact le_rfl
    · exact le_rfl
  | wakeFront => exact le_rfl
  | release capacity => exact le_rfl
  | others waiters cost => exact le_rfl

/-! ### Wake-ups -/

/-- What holds of the front waiter: if it must be woken it is armed, or is about to be; one that
need not be woken could not be admitted; and an armed one has been woken. -/
structure Watched (attempt : R → C → Option C) (w : FairWaitQueue C R) (e : FairWaiterEntry R) :
    Prop where
  armed : e.due → e.armed ∨ 0 < w.owed
  refused : ¬ e.due → attempt e.request w.capacity = none
  woken : e.armed → ∀ k ∈ e.waker, k ∈ w.woken.drop e.armedAt

/-- No waiter behind the front is armed, and the front is watched. -/
def Alert (attempt : R → C → Option C) (w : FairWaitQueue C R) : Prop :=
  match w.queue with
  | [] => True
  | e :: rest => Watched attempt w e ∧ ∀ b ∈ rest, ¬ b.armed

theorem Alert.of_nil (h : w.queue = []) : Alert attempt w := by
  simp [Alert, h]

theorem alert_cons {e : FairWaiterEntry R} {rest : List (FairWaiterEntry R)}
    (h : w.queue = e :: rest) :
    Alert attempt w ↔ Watched attempt w e ∧ ∀ b ∈ rest, ¬ b.armed := by
  simp [Alert, h]

theorem Alert.of_eq {w' : FairWaitQueue C R} (h : Alert attempt w) (hq : w'.queue = w.queue)
    (hc : w'.capacity = w.capacity) (ho : w'.owed = w.owed) (hw : w'.woken = w.woken) :
    Alert attempt w' := by
  cases hl : w.queue with
  | nil => exact Alert.of_nil (hq.trans hl)
  | cons e rest =>
    obtain ⟨⟨harmed, hrefused, hwoken⟩, hrest⟩ := (alert_cons hl).1 h
    refine (alert_cons (hq.trans hl)).2 ⟨⟨?_, ?_, ?_⟩, hrest⟩
    · simpa [ho] using harmed
    · simpa [hc] using hrefused
    · simpa [hw] using hwoken

theorem alert_wakeWith {e : FairWaiterEntry R} {rest : List (FairWaiterEntry R)} (owed : ℕ)
    (hdue : ¬ e.due → attempt e.request w.capacity = none)
    (hwoken : e.armed → ∀ k ∈ e.waker, k ∈ w.woken.drop e.armedAt) (hrest : ∀ b ∈ rest, ¬ b.armed) :
    Alert attempt { w.wakeWith (e :: rest) with owed := owed } := by
  by_cases he : e.armed
  · have hq : ({ w.wakeWith (e :: rest) with owed := owed } : FairWaitQueue C R).queue =
        e :: rest := by simp [wakeWith, armFront, he]
    refine (alert_cons hq).2 ⟨⟨fun _ => .inl he, hdue, fun _ k hk => ?_⟩, hrest⟩
    simp only [wakeWith, armFront, he, if_true, Option.toList_none, List.append_nil]
    exact hwoken he k hk
  · have hq : ({ w.wakeWith (e :: rest) with owed := owed } : FairWaitQueue C R).queue =
        { e with armed := true, armedAt := w.woken.length } :: rest := by
      simp [wakeWith, armFront, he]
    refine (alert_cons hq).2 ⟨⟨fun _ => .inl rfl, hdue, fun _ k hk => ?_⟩, hrest⟩
    have hk : e.waker = some k := hk
    simp [wakeWith, armFront, he, hk]

/-- The next front waiter is woken when the one before it departs. -/
theorem alert_promote {rest : List (FairWaiterEntry R)} (hrest : ∀ b ∈ rest, ¬ b.armed) :
    Alert attempt (w.wakeWith (promote rest)) := by
  cases rest with
  | nil => exact Alert.of_nil rfl
  | cons e rest =>
    have he := hrest e List.mem_cons_self
    exact alert_wakeWith (w := w) (e := { e with due := true }) w.owed (by simp)
      (fun harmed => absurd harmed he) (fun b hb => hrest b (List.mem_cons_of_mem e hb))

theorem Alert.unarmed {e : FairWaiterEntry R} {rest : List (FairWaiterEntry R)}
    (h : Alert attempt w) (hq : w.queue = e :: rest) : ∀ b ∈ rest, ¬ b.armed :=
  ((alert_cons hq).1 h).2

theorem Alert.admitOrWait (h : Alert attempt w) (r : R) (cost : ℕ) :
    Alert attempt (w.admitOrWait attempt r cost) := by
  obtain ⟨hnil, capacity, heq⟩ | heq | ⟨budget, hnone, heq⟩ := w.admitOrWait_cases attempt r cost
  · rw [heq]
    exact Alert.of_nil hnil
  · rw [heq]
    exact h
  · rw [heq]
    cases hq : w.queue with
    | nil =>
      -- it has just failed its attempt
      have hq' : (w.enqueue budget r cost).queue =
          [⟨w.nextId, none, false, cost, w.arrived, r, false, 0⟩] := by
        simp [FairWaitQueue.enqueue, hq]
      refine (alert_cons hq').2 ⟨⟨by simp, fun _ => hnone hq, by simp⟩, by simp⟩
    | cons e rest =>
      obtain ⟨⟨harmed, hrefused, hwoken⟩, hrest⟩ := (alert_cons hq).1 h
      have hq' : (w.enqueue budget r cost).queue =
          e :: (rest ++ [⟨w.nextId, none, false, cost, w.arrived, r, false, 0⟩]) := by
        simp [FairWaitQueue.enqueue, hq]
      refine (alert_cons hq').2 ⟨⟨harmed, hrefused, hwoken⟩, fun b hb => ?_⟩
      rcases List.mem_append.1 hb with hb | hb
      · exact hrest b hb
      · simp only [List.mem_singleton] at hb
        simp [hb]

theorem Alert.poll (h : Alert attempt w) (ticket : ℕ) (waker : Waker) (r : R) :
    Alert attempt (w.poll attempt ticket waker r) := by
  obtain heq | ⟨i, heq⟩ | ⟨e, rest, hq, -, heq⟩ := w.poll_cases attempt ticket waker r
  · rw [heq]
    exact h
  · rw [heq]
    cases hq : w.queue with
    | nil => exact Alert.of_nil rfl
    | cons e rest =>
      obtain ⟨⟨harmed, hrefused, hwoken⟩, hrest⟩ := (alert_cons hq).1 h
      rw [List.modify_succ_cons]
      refine (alert_cons rfl).2 ⟨⟨harmed, hrefused, hwoken⟩, fun b hb => ?_⟩
      have hb : b.armed ∈ rest.map (·.armed) := by
        rw [← waked_armed rest i waker]
        exact List.mem_map_of_mem hb
      obtain ⟨b', hb', hba⟩ := List.mem_map.1 hb
      exact hba ▸ hrest b' hb'
  · obtain ⟨⟨harmed, hrefused, hwoken⟩, hrest⟩ := (alert_cons hq).1 h
    rw [heq]
    split
    · unfold pollFront
      split
      · next hnone => exact (alert_cons rfl).2 ⟨⟨by simp, fun _ => hnone, by simp⟩, hrest⟩
      · exact alert_promote hrest
    · next he =>
      exact (alert_cons (e := { e with waker := some waker }) rfl).2
        ⟨⟨harmed, hrefused, fun harmed => absurd harmed he⟩, hrest⟩

theorem Alert.cancel (h : Alert attempt w) (ticket : ℕ) : Alert attempt (w.cancel ticket) := by
  obtain heq | heq | ⟨e, rest, hq, -, heq⟩ | ⟨i, hi, -, heq⟩ := w.cancel_cases ticket
  · rw [heq]
    exact h
  · rw [heq]
    exact h.of_eq rfl rfl rfl rfl
  · rw [heq]
    exact alert_promote (h.unarmed hq)
  · rw [heq]
    obtain ⟨e, rest, hq⟩ := List.exists_cons_of_length_pos (Nat.zero_lt_of_lt hi)
    obtain ⟨⟨harmed, hrefused, hwoken⟩, hrest⟩ := (alert_cons hq).1 h
    have hq' : w.queue.eraseIdx (i + 1) = e :: rest.eraseIdx i := by
      rw [hq, List.eraseIdx_cons_succ]
    refine (alert_cons hq').2 ⟨⟨harmed, hrefused, hwoken⟩, fun b hb => ?_⟩
    exact hrest b (List.mem_of_mem_eraseIdx hb)

theorem Alert.step (h : Alert attempt w) (c : WaitCall C R) :
    Alert attempt (w.step attempt c) := by
  cases c with
  | admitOrWait r cost => exact h.admitOrWait r cost
  | tryAdmitUnqueued r =>
    change Alert attempt (w.tryAdmitUnqueued attempt r)
    obtain ⟨hnil, capacity, heq⟩ | heq := w.tryAdmitUnqueued_cases attempt r
    · rw [heq]
      exact Alert.of_nil hnil
    · rw [heq]
      exact h
  | poll ticket waker r =>
    simp only [FairWaitQueue.step]
    split
    · exact h.poll ticket waker r
    · exact h
  | cancel ticket =>
    simp only [FairWaitQueue.step]
    split
    · exact h.cancel ticket
    · exact h
  | wakeFront =>
    cases hq : w.queue with
    | nil => exact Alert.of_nil (by simp [FairWaitQueue.step, wakeWith, armFront, hq])
    | cons e rest =>
      obtain ⟨⟨harmed, hrefused, hwoken⟩, hrest⟩ := (alert_cons hq).1 h
      simp only [FairWaitQueue.step, hq]
      exact alert_wakeWith _ hrefused hwoken hrest
  | release capacity =>
    cases hq : w.queue with
    | nil => exact Alert.of_nil (by simp [FairWaitQueue.step, hq])
    | cons e rest =>
      obtain ⟨⟨-, -, hwoken⟩, hrest⟩ := (alert_cons hq).1 h
      simp only [FairWaitQueue.step, hq, List.map_cons]
      refine (alert_cons (e := { e with due := true }) rfl).2
        ⟨⟨fun _ => .inr (Nat.succ_pos _), by simp, hwoken⟩, fun b hb => ?_⟩
      obtain ⟨b', hb', rfl⟩ := List.mem_map.1 hb
      exact hrest b' hb'
  | others waiters cost => exact h.of_eq rfl rfl rfl rfl

/-! ### Runs -/

theorem run_append (calls more : List (WaitCall C R)) :
    w.run attempt (calls ++ more) = (w.run attempt calls).run attempt more :=
  List.foldl_append

theorem run_concat (calls : List (WaitCall C R)) (c : WaitCall C R) :
    w.run attempt (calls ++ [c]) = (w.run attempt calls).step attempt c :=
  run_append calls [c]

theorem alert_run (h : Alert attempt w) (calls : List (WaitCall C R)) :
    Alert attempt (w.run attempt calls) := by
  induction calls using List.reverseRecOn with
  | nil => exact h
  | append_singleton calls c ih =>
    rw [run_concat]
    exact ih.step c

theorem orderly_run (hw : w.Named) (hl : w.line.Orderly) (calls : List (WaitCall C R))
    (hle : (w.run attempt calls).arrived ≤ 2 ^ 64) :
    (w.run attempt calls).Named ∧ (w.run attempt calls).line.Orderly := by
  induction calls using List.reverseRecOn with
  | nil => exact ⟨hw, hl⟩
  | append_singleton calls c ih =>
    rw [run_concat] at hle ⊢
    obtain ⟨hnamed, horderly⟩ := ih ((arrived_le_step c).trans hle)
    obtain ⟨hnamed', hstep⟩ := hnamed.step c hle
    exact ⟨hnamed', horderly.step hstep⟩

theorem named_withBudget (budget : FairWaitBudget) (capacity : C) :
    (withBudget budget capacity : FairWaitQueue C R).Named where
  nextId := rfl
  ends t ht := absurd ht (Nat.not_lt_zero t)
  ids := rfl

/-- In every run that queues at most `2 ^ 64` waiters they are admitted in arrival order, none
before an earlier one that has not left and none unqueued while another waits; and once no release
owes its `wakeFront`, a front waiter that must be woken, or whose attempt would now succeed, is
armed and has been woken through its waker, if it was ever polled. -/
theorem fair_and_awake (attempt : R → C → Option C) (budget : FairWaitBudget) (capacity : C)
    (calls : List (WaitCall C R))
    (hle : ((withBudget budget capacity).run attempt calls).arrived ≤ 2 ^ 64) :
    let w := (withBudget budget capacity).run attempt calls
    Fair w.events ∧ (w.events.filterMap LineEvent.admission).Pairwise (· < ·) ∧
    (∀ t, t ∈ w.queue.map (·.ticket) ↔ .queued t ∈ w.events ∧ ¬ Gone w.events t) ∧
    (w.owed = 0 → ∀ e ∈ w.queue.head?, e.due ∨ (attempt e.request w.capacity).isSome →
      e.armed ∧ ∀ k ∈ e.waker, k ∈ w.woken.drop e.armedAt) := by
  obtain ⟨-, horderly⟩ :=
    orderly_run (named_withBudget budget capacity) Line.orderly_empty calls hle
  refine ⟨horderly.fair, horderly.fair.admissions_pairwise, fun t => ?_, fun howed e he hnow => ?_⟩
  · exact (horderly.inLine t).trans (and_congr_left' (horderly.arrivals t).symm)
  · have hstart : Alert attempt (withBudget budget capacity : FairWaitQueue C R) := Alert.of_nil rfl
    have halert := alert_run hstart calls
    obtain ⟨rest, hq⟩ := List.head?_eq_some_iff.1 he
    obtain ⟨⟨harmed, hrefused, hwoken⟩, -⟩ := (alert_cons hq).1 halert
    have hdue : e.due := by
      rcases hnow with hdue | hsome
      · exact hdue
      · by_contra hdue
        simp [hrefused hdue] at hsome
    have : e.armed := (harmed hdue).resolve_right (by omega)
    exact ⟨this, hwoken this⟩

/-- One unit is taken, when there is one. -/
def takeOne (_ : Unit) (free : ℕ) : Option ℕ := if 0 < free then some (free - 1) else none

theorem fair_and_awake_released :
    let w := (withBudget ⟨0, 0, 8, 8⟩ 0).run takeOne
      [.admitOrWait () 1, .admitOrWait () 1, .poll 0 7 (), .release 1, .wakeFront]
    w.owed = 0 ∧ w.queue.head?.any (·.due) ∧ Fair w.events ∧
    ∀ e ∈ w.queue.head?, e.due ∨ (takeOne e.request w.capacity).isSome →
      e.armed ∧ ∀ k ∈ e.waker, k ∈ w.woken.drop e.armedAt := by
  have h := fair_and_awake takeOne ⟨0, 0, 8, 8⟩ 0
    [.admitOrWait () 1, .admitOrWait () 1, .poll 0 7 (), .release 1, .wakeFront]
    (by decide +kernel)
  exact ⟨by decide +kernel, by decide +kernel, h.1, h.2.2.2 (by decide +kernel)⟩

/-! ### Ids that come round -/

/-- So many waiters come and go behind the first one. -/
def passersBy (n : ℕ) : List (WaitCall ℕ Unit) :=
  (List.range n).flatMap fun k => [.admitOrWait () 0, .cancel (k + 1)]

/-- The first waiter alone is queued, after `k` others came and went. -/
structure Lone (k : ℕ) (w : FairWaitQueue ℕ Unit) : Prop where
  nextId : w.nextId = (k + 1) % 2 ^ 64
  arrived : w.arrived = k + 1
  queue : w.queue = [⟨0, none, false, 0, 0, (), false, 0⟩]
  budget : w.budget = ⟨1, 0, 2, 0⟩
  capacity : w.capacity = 0
  queued : .queued 0 ∈ w.events
  waits : ¬ Gone w.events 0

theorem Lone.passBy {k : ℕ} {w : FairWaitQueue ℕ Unit} (h : Lone k w) (hk : k + 1 < 2 ^ 64) :
    Lone (k + 1) (w.run takeOne [.admitOrWait () 0, .cancel (k + 1)]) := by
  obtain ⟨hnext, harrived, hqueue, hbudget, hcapacity, hqueued, hwaits⟩ := h
  have hnext : w.nextId = k + 1 := by rw [hnext, Nat.mod_eq_of_lt hk]
  have hjoin : w.admitOrWait takeOne () 0 = w.enqueue ⟨2, 0, 2, 0⟩ () 0 := by
    simp [FairWaitQueue.admitOrWait, hqueue, hbudget, FairWaitBudget.tryAcquire, checkedAdd,
      usizeMax]
  have hleave : (w.enqueue ⟨2, 0, 2, 0⟩ () 0).cancel (k + 1) =
      { (w.enqueue ⟨2, 0, 2, 0⟩ () 0).depart (k + 1)
          ⟨k + 1, none, false, 0, k + 1, (), false, 0⟩ with
        queue := w.queue } := by
    simp [FairWaitQueue.cancel, FairWaitQueue.enqueue, hqueue, hnext, harrived,
      List.findIdx?_cons]
  have hround : w.run takeOne [.admitOrWait () 0, .cancel (k + 1)] =
      (w.enqueue ⟨2, 0, 2, 0⟩ () 0).cancel (k + 1) := by
    simp only [run, List.foldl_cons, List.foldl_nil, FairWaitQueue.step, hjoin]
    exact if_pos (by simp [FairWaitQueue.enqueue, harrived])
  rw [hround, hleave]
  refine ⟨?_, ?_, hqueue, ?_, hcapacity, ?_, ?_⟩
  · simp [FairWaitQueue.enqueue, depart, deactivate, hnext]
  · simp [FairWaitQueue.enqueue, depart, deactivate, harrived]
  · simp [FairWaitQueue.enqueue, depart, FairWaitBudget.release]
  · simp [FairWaitQueue.enqueue, depart, hqueued]
  · simpa [FairWaitQueue.enqueue, depart, Gone] using hwaits

theorem lone_run (n : ℕ) (hn : n < 2 ^ 64) :
    Lone n ((withBudget ⟨0, 0, 2, 0⟩ 0).run takeOne (.admitOrWait () 0 :: passersBy n)) := by
  induction n with
  | zero =>
    refine ⟨by decide, by decide, ?_, ?_, rfl, by decide, by unfold Gone; decide⟩ <;> rfl
  | succ n ih =>
    have hrun : (withBudget ⟨0, 0, 2, 0⟩ 0).run takeOne (.admitOrWait () 0 :: passersBy (n + 1)) =
        ((withBudget ⟨0, 0, 2, 0⟩ 0).run takeOne (.admitOrWait () 0 :: passersBy n)).run takeOne
          [.admitOrWait () 0, .cancel (n + 1)] := by
      rw [← run_append]
      simp [passersBy, List.range_succ]
    rw [hrun]
    exact (ih (by omega)).passBy hn

theorem Lone.overtaken {w : FairWaitQueue ℕ Unit} (h : Lone (2 ^ 64 - 1) w) :
    ¬ Fair (w.run takeOne
      [.admitOrWait () 0, .release 1, .wakeFront, .poll (2 ^ 64) 0 ()]).events := by
  obtain ⟨hnext, harrived, hqueue, hbudget, hcapacity, hqueued, hwaits⟩ := h
  have hjoin : w.admitOrWait takeOne () 0 = w.enqueue ⟨2, 0, 2, 0⟩ () 0 := by
    simp [FairWaitQueue.admitOrWait, hqueue, hbudget, FairWaitBudget.tryAcquire, checkedAdd,
      usizeMax]
  have hevents : (w.run takeOne
      [.admitOrWait () 0, .release 1, .wakeFront, .poll (2 ^ 64) 0 ()]).events =
      w.events ++ [.queued (2 ^ 64)] ++ [.admitted (2 ^ 64)] := by
    simp [run, step, hjoin, FairWaitQueue.enqueue, hqueue, hnext, harrived, wakeWith, armFront,
      poll, List.findIdx?_cons, pollFront, takeOne, promote, deactivate]
  rw [hevents]
  intro hfair
  obtain ⟨-, -, hgone⟩ := ((fair_concat _ _).1 hfair).2
  have := hgone 0 (by norm_num) (List.mem_append_left _ hqueued)
  simp only [Gone, List.mem_append, List.mem_singleton, reduceCtorEq, or_false] at this hwaits
  exact hwaits this

/-- After `2 ^ 64` arrivals a waiter gets the id of one that still waits, and takes its place. -/
theorem id_comes_round :
    ¬ Fair ((withBudget ⟨0, 0, 2, 0⟩ 0).run takeOne
      ((.admitOrWait () 0 :: passersBy (2 ^ 64 - 1)) ++
        [.admitOrWait () 0, .release 1, .wakeFront, .poll (2 ^ 64) 0 ()])).events := by
  rw [run_append]
  exact (lone_run (2 ^ 64 - 1) (by norm_num)).overtaken

end FairWaitQueue

end Rings.FairWait
