import Rings.SendAccounting

/-!
Every run of the onion send queues: the counts are those of the cells and of the endpoints, and
the cells of one lane leave in the order they came.
-/

namespace Rings.Onion

variable {T : Type}

/-! ### The order of one lane -/

/-- What a lane took is what left it, what its emitter is sending and what it queues, in order. -/
structure LaneLog.Matches (log : LaneLog T) (lane : PeerLane T) : Prop where
  epoch : log.epoch = lane.epoch
  order : log.accepted = log.left ++ log.sending.toList ++ lane.queued.map Queued.item
  flight : log.sending.isSome = lane.inFlight.isSome

def Follows (logs : BTreeMap Did (LaneLog T)) (lanes : BTreeMap Did (PeerLane T)) : Prop :=
  ∀ p, Option.Rel LaneLog.Matches (logs.get? p) (lanes.get? p)

namespace Follows

variable {logs : BTreeMap Did (LaneLog T)} {lanes : BTreeMap Did (PeerLane T)} {peer : Did}
  {lane lane' : PeerLane T}

lemma log_of_lane (h : Follows logs lanes) (hget : lanes.get? peer = some lane) :
    ∃ log, logs.get? peer = some log ∧ log.Matches lane := by
  have hrel := h peer
  rw [hget] at hrel
  cases hlog : logs.get? peer with
  | none =>
    rw [hlog] at hrel
    cases hrel
  | some log =>
    rw [hlog] at hrel
    cases hrel with
    | some hmatch => exact ⟨log, rfl, hmatch⟩

lemma lane_of_log (h : Follows logs lanes) {log : LaneLog T} (hlog : logs.get? peer = some log) :
    ∃ lane, log.Matches lane := by
  have hrel := h peer
  rw [hlog] at hrel
  cases hlane : lanes.get? peer with
  | none =>
    rw [hlane] at hrel
    cases hrel
  | some lane =>
    rw [hlane] at hrel
    cases hrel with
    | some hmatch => exact ⟨lane, hmatch⟩

lemma insert (h : Follows logs lanes) {log : LaneLog T} (hmatch : log.Matches lane) :
    Follows (logs.insert peer log) (lanes.insert peer lane) := by
  intro p
  rw [BTreeMap.get?_insert, BTreeMap.get?_insert]
  split
  · exact .some hmatch
  · exact h p

lemma onLog (h : Follows logs lanes) (hget : lanes.get? peer = some lane)
    {f : LaneLog T → LaneLog T} (hf : ∀ log, log.Matches lane → (f log).Matches lane') :
    Follows (SendTrace.onLog logs peer f) (lanes.insert peer lane') := by
  obtain ⟨log, hlog, hmatch⟩ := h.log_of_lane hget
  rw [SendTrace.onLog, hlog]
  exact h.insert (hf log hmatch)

/-- A lane that changes and keeps its history. -/
lemma setLane (h : Follows logs lanes) (hget : lanes.get? peer = some lane)
    (hf : ∀ log : LaneLog T, log.Matches lane → log.Matches lane') :
    Follows logs (lanes.insert peer lane') := by
  intro p
  rw [BTreeMap.get?_insert]
  split
  · rename_i hp
    obtain ⟨log, hlog, hmatch⟩ := h.log_of_lane hget
    rw [hp, hlog]
    exact .some (hf log hmatch)
  · exact h p

lemma remove (h : Follows logs lanes) : Follows (logs.remove peer) (lanes.remove peer) := by
  intro p
  rw [BTreeMap.get?_remove, BTreeMap.get?_remove]
  split
  · exact .none
  · exact h p

end Follows

/-! ### The endpoints of a lane -/

namespace OrderedSendState

variable {s s' : OrderedSendState T} {alive : ℕ → Bool}

lemma forgetWaiter_waiting {peer : Did} (h : s.waitingFor peer = 0) :
    (s.forgetWaiter peer).waiting = s.waiting := by
  rw [forgetWaiter]
  split
  · rfl
  · rename_i count hcount
    rw [waitingFor, hcount, Option.getD_some] at h
    refine BTreeMap.ext_get? fun p => ?_
    rw [BTreeMap.get?_insert, h]
    split
    · rename_i hp
      rw [hp, hcount, h]
    · rfl

/-- A lane without endpoints, or whose first waiter is alive, loses no count to a wake-up; and if
no waiter is alive its queue ends. -/
lemma popWaiter_spec {peer : Did} {queue : List ℕ}
    (h : s.waitingFor peer = 0 ∨ queue.head?.all alive = true) :
    (s.popWaiter alive peer queue).1.waiting = s.waiting ∧
      ((s.popWaiter alive peer queue).2 = none →
        queue.any alive = false ∧
          (s.popWaiter alive peer queue).1.space = s.space.remove peer) := by
  induction queue generalizing s with
  | nil => exact ⟨rfl, fun _ => ⟨rfl, rfl⟩⟩
  | cons waiter queue ih =>
    rw [popWaiter]
    split
    · exact ⟨rfl, fun hpop => by cases hpop⟩
    · rename_i hdead
      rw [List.head?_cons, Option.all_some] at h
      have hzero : s.waitingFor peer = 0 := h.resolve_right hdead
      have hforget := forgetWaiter_waiting hzero
      have hspace : (s.forgetWaiter peer).space = s.space := by
        rw [forgetWaiter]
        split <;> rfl
      obtain ⟨hwaiting, hnone⟩ := ih (s := s.forgetWaiter peer)
        (Or.inl (by rw [waitingFor, hforget]; exact hzero))
      refine ⟨hwaiting.trans hforget, fun hpop => ?_⟩
      obtain ⟨hany, hrest⟩ := hnone hpop
      rw [List.any_cons, hany, hrest, hspace, Bool.or_false]
      exact ⟨Bool.eq_false_iff.2 hdead, rfl⟩

/-- A queue that no waiter of which is alive may go. -/
lemma passesClean_of_space (hwaiting : s'.waiting = s.waiting)
    (hspace : ∀ p, s'.space.get? p = s.space.get? p ∨
      s'.space.get? p = none ∧ ∀ queue, s.space.get? p = some queue → queue.any alive = false)
    {candidates : List Did} (h : s.passesClean alive candidates = true) :
    s'.passesClean alive candidates = true := by
  induction candidates with
  | nil => rfl
  | cons candidate candidates ih =>
    rw [passesClean] at h ⊢
    rcases hspace candidate with heq | ⟨hnone, hdead⟩
    · rw [heq]
      split
      · rename_i hqueue
        rw [hqueue] at h
        exact ih h
      · rename_i queue hqueue
        rw [hqueue] at h
        dsimp only at h
        rw [Bool.and_eq_true, Bool.or_eq_true (List.any _ _)] at h ⊢
        rw [waitingFor, hwaiting]
        exact ⟨h.1, h.2.imp_right ih⟩
    · rw [hnone]
      split at h
      · exact ih h
      · rename_i queue hqueue
        rw [Bool.and_eq_true, hdead queue hqueue, Bool.false_or] at h
        exact ih h.2

/-- A wake-up that passes over no waiter of a lane with endpoints leaves every count. -/
lemma wakeFirst_waiting {candidates : List Did} (h : s.passesClean alive candidates = true) :
    (s.wakeFirst alive candidates).1.waiting = s.waiting := by
  induction candidates generalizing s with
  | nil => rfl
  | cons candidate candidates ih =>
    rw [passesClean] at h
    rw [wakeFirst]
    cases hqueue : s.space.get? candidate with
    | none =>
      rw [hqueue] at h
      exact ih h
    | some queue =>
      rw [hqueue] at h
      dsimp only at h ⊢
      rw [Bool.and_eq_true, Bool.or_eq_true, Bool.or_eq_true, decide_eq_true_eq] at h
      obtain ⟨hwaiting, hnone⟩ := popWaiter_spec h.1
      rcases hpop : s.popWaiter alive candidate queue with ⟨s', woken⟩
      rw [hpop] at hwaiting hnone
      cases woken with
      | some waiter => exact hwaiting
      | none =>
        obtain ⟨hdead, hspace⟩ := hnone rfl
        have hrest : s.passesClean alive candidates = true := h.2.resolve_left (by simp [hdead])
        refine (ih (passesClean_of_space hwaiting (fun p => ?_) hrest)).trans hwaiting
        dsimp only at hspace
        rw [hspace, BTreeMap.get?_remove]
        split
        · rename_i hp
          refine Or.inr ⟨rfl, fun other hother => ?_⟩
          rw [hp, hqueue] at hother
          exact Option.some.inj hother ▸ hdead
        · exact Or.inl rfl

lemma wakeOne_waiting {order : List Did} {peer : Did}
    (h : s.wakesClean alive order peer = true) :
    (s.wakeOne alive order peer).1.waiting = s.waiting :=
  wakeFirst_waiting h

lemma wakesClean_congr (hspace : s'.space = s.space) (hwaiting : s'.waiting = s.waiting)
    {order : List Did} {peer : Did} (h : s.wakesClean alive order peer = true) :
    s'.wakesClean alive order peer = true := by
  rw [wakesClean, candidates, hspace]
  exact passesClean_of_space hwaiting (fun p => Or.inl (by rw [hspace])) h

end OrderedSendState

namespace SendTrace

/-- Each lane's count is the number of its endpoints. -/
def Counts (waiting : BTreeMap Did ℕ) (waits : BTreeMap ℕ OnionLaneWait) : Prop :=
  ∀ p, waiting.get? p =
    if endpointsOf waits p = 0 then none else some (endpointsOf waits p)

lemma endpointsOf_moveTo (waits : BTreeMap ℕ OnionLaneWait) (waiter : ℕ) (phase : WaitPhase)
    (peer : Did) : endpointsOf (moveTo waits waiter phase) peer = endpointsOf waits peer := by
  have hsum := BTreeMap.sumBy_replace (fun _ (wait : OnionLaneWait) =>
    if wait.peer = peer then 1 else 0) waits waiter
    ((waits.get? waiter).map fun wait => { wait with phase := phase })
  have hsame : ((waits.get? waiter).map fun wait => { wait with phase := phase }).elim 0
      (fun wait => if wait.peer = peer then 1 else 0) =
      (waits.get? waiter).elim 0 (fun wait => if wait.peer = peer then 1 else 0) := by
    cases waits.get? waiter <;> rfl
  rw [hsame] at hsum
  exact Nat.add_right_cancel hsum

lemma endpointsOf_fire (waits : BTreeMap ℕ OnionLaneWait) (woken : List ℕ) (peer : Did) :
    endpointsOf (fire waits woken) peer = endpointsOf waits peer := by
  rw [fire]
  induction woken generalizing waits with
  | nil => rfl
  | cons waiter woken ih =>
    rw [List.foldl_cons, ih]
    split
    · exact endpointsOf_moveTo waits waiter .woken peer
    · rfl

lemma get?_moveTo {waits : BTreeMap ℕ OnionLaneWait} {w : ℕ} (h : waits.get? w = none)
    (waiter : ℕ) (phase : WaitPhase) : (moveTo waits waiter phase).get? w = none := by
  rw [moveTo, BTreeMap.get?_replace]
  split
  · rename_i hw
    rw [← hw, h]
    rfl
  · exact h

lemma get?_fire {waits : BTreeMap ℕ OnionLaneWait} {w : ℕ} (h : waits.get? w = none)
    (woken : List ℕ) : (fire waits woken).get? w = none := by
  rw [fire]
  induction woken generalizing waits with
  | nil => exact h
  | cons waiter woken ih =>
    rw [List.foldl_cons]
    refine ih ?_
    split
    · exact get?_moveTo h waiter .woken
    · exact h

lemma Counts.of_endpoints {waiting : BTreeMap Did ℕ} {waits waits' : BTreeMap ℕ OnionLaneWait}
    (h : Counts waiting waits) (heq : ∀ p, endpointsOf waits' p = endpointsOf waits p) :
    Counts waiting waits' := by
  intro p
  rw [heq p]
  exact h p

lemma Counts.waitingFor {s : OrderedSendState T} {waits : BTreeMap ℕ OnionLaneWait}
    (h : Counts s.waiting waits) (p : Did) : s.waitingFor p = endpointsOf waits p := by
  rw [OrderedSendState.waitingFor, h p]
  split
  · rename_i hzero
    exact hzero.symm
  · rfl

lemma endpointsOf_insert {waits : BTreeMap ℕ OnionLaneWait} {waiter : ℕ}
    (hfresh : waits.get? waiter = none) (wait : OnionLaneWait) (p : Did) :
    endpointsOf (waits.insert waiter wait) p =
      endpointsOf waits p + if wait.peer = p then 1 else 0 := by
  have hsum := BTreeMap.sumBy_insert (fun _ (wait : OnionLaneWait) =>
    if wait.peer = p then 1 else 0) waits waiter wait
  rw [hfresh, Option.elim_none, Nat.add_zero] at hsum
  exact hsum

lemma endpointsOf_remove {waits : BTreeMap ℕ OnionLaneWait} {waiter : ℕ} {wait : OnionLaneWait}
    (hget : waits.get? waiter = some wait) (p : Did) :
    endpointsOf (waits.remove waiter) p + (if wait.peer = p then 1 else 0) =
      endpointsOf waits p := by
  have hsum := BTreeMap.sumBy_remove (fun _ (wait : OnionLaneWait) =>
    if wait.peer = p then 1 else 0) waits waiter
  rw [hget, Option.elim_some] at hsum
  exact hsum

lemma Counts.register {s : OrderedSendState T} {waits : BTreeMap ℕ OnionLaneWait}
    (h : Counts s.waiting waits) {waiter : ℕ} (hfresh : waits.get? waiter = none) (peer : Did)
    (phase : WaitPhase) :
    Counts (s.register peer waiter).waiting (waits.insert waiter ⟨peer, phase⟩) := by
  intro p
  rw [OrderedSendState.register, BTreeMap.get?_insert, h.waitingFor, endpointsOf_insert hfresh]
  by_cases hp : p = peer
  · subst hp
    simp
  · rw [if_neg hp, if_neg (Ne.symm hp), Nat.add_zero]
    exact h p

lemma Counts.leave {s : OrderedSendState T} {waits : BTreeMap ℕ OnionLaneWait}
    (h : Counts s.waiting waits) {waiter : ℕ} {wait : OnionLaneWait}
    (hget : waits.get? waiter = some wait) :
    Counts (s.leave wait.peer).waiting (waits.remove waiter) := by
  have hpeer := endpointsOf_remove hget wait.peer
  rw [if_pos rfl] at hpeer
  have hcount := h wait.peer
  rw [if_neg (by omega)] at hcount
  rw [OrderedSendState.leave, hcount]
  dsimp only
  have hother : ∀ p, p ≠ wait.peer → s.waiting.get? p =
      if endpointsOf (waits.remove waiter) p = 0 then none
      else some (endpointsOf (waits.remove waiter) p) := by
    intro p hp
    have hp' := endpointsOf_remove hget p
    rw [if_neg (Ne.symm hp), Nat.add_zero] at hp'
    rw [hp']
    exact h p
  have hrest : endpointsOf (waits.remove waiter) wait.peer = endpointsOf waits wait.peer - 1 := by
    omega
  split
  · rename_i hzero
    intro p
    rw [BTreeMap.get?_remove]
    split
    · rename_i hp
      rw [hp, hrest, if_pos hzero]
    · rename_i hp
      exact hother p hp
  · rename_i hpos
    intro p
    rw [BTreeMap.get?_insert]
    split
    · rename_i hp
      rw [hp, hrest, if_neg hpos]
    · rename_i hp
      exact hother p hp

/-! ### Every step keeps the counts and the order -/

structure Kept (t : SendTrace T) : Prop where
  accounts : t.state.Accounts
  logs : Follows t.logs t.state.lanes
  past : ∀ entry ∈ t.past, entry.2.left ++ entry.2.sending.toList <+: entry.2.accepted
  fresh : ∀ w, t.nextWaiter ≤ w → t.waits.get? w = none
  counts : t.clean = true → Counts t.state.waiting t.waits

lemma kept_new : (new : SendTrace T).Kept :=
  ⟨OrderedSendState.accounts_default, fun _ => .none, fun _ => nofun, fun _ _ => rfl,
    fun _ _ => rfl⟩

lemma Kept.openLane {t : SendTrace T} (h : t.Kept) (nowUs : ℕ) (peer : Did) :
    (t.openLane nowUs peer).Kept := by
  have haccounts := h.accounts.openLane peer nowUs
  rw [SendTrace.openLane]
  rcases OrderedSendState.openLane_cases t.state peer nowUs with ⟨heq, -⟩ |
    ⟨retired, -, ⟨lane, -, heq⟩ | ⟨-, heq⟩⟩ <;> rw [heq] at haccounts ⊢
  · exact h
  · exact ⟨haccounts, h.logs, h.past, h.fresh, h.counts⟩
  · exact ⟨haccounts, h.logs.insert ⟨rfl, rfl, rfl⟩, h.past, h.fresh, h.counts⟩

/-- The endpoint that retries has left the count of its lane before. -/
lemma kept_enqueue {t : SendTrace T} (haccounts : t.state.Accounts)
    (hlogs : Follows t.logs t.state.lanes)
    (hpast : ∀ entry ∈ t.past, entry.2.left ++ entry.2.sending.toList <+: entry.2.accepted)
    (hfresh : ∀ w, t.nextWaiter ≤ w → t.waits.get? w = none) (nowUs : ℕ) (peer : Did) (item : T)
    (class_ : OnionLoopClass) (role : QueueRole)
    (hcounts : t.clean = true →
      Counts (if role = .endpoint true then t.state.leave peer else t.state).waiting t.waits) :
    (t.enqueue nowUs peer item class_ role).Kept := by
  have hwaits : OrderedSendState.Waits t.state
      (if role = .endpoint true then t.state.leave peer else t.state) := by
    split
    · exact OrderedSendState.waits_leave t.state peer
    · exact .refl _
  have hkept := haccounts.enqueue peer item class_ nowUs role t.nextWaiter
  rw [SendTrace.enqueue]
  rcases OrderedSendState.enqueue_cases t.state peer item class_ nowUs role t.nextWaiter with
    ⟨reason, heq⟩ | ⟨reason, -, heq⟩ | ⟨lane, quota, hget, -, -, heq⟩ <;> rw [heq] at hkept ⊢
  · refine ⟨hkept, ?_, hpast, hfresh, hcounts⟩
    dsimp only
    rw [hwaits.lanes]
    exact hlogs
  · refine ⟨hkept, ?_, hpast, fun w hw => ?_, fun hclean => ?_⟩
    · dsimp only [OrderedSendState.register]
      rw [hwaits.lanes]
      exact hlogs
    · dsimp only at hw ⊢
      rw [BTreeMap.get?_insert, if_neg (by omega)]
      exact hfresh w (by omega)
    · exact (hcounts hclean).register (hfresh _ le_rfl) peer .registered
  · refine ⟨hkept, ?_, hpast, hfresh, hcounts⟩
    exact hlogs.onLog hget fun log hmatch => ⟨hmatch.epoch, by simp [hmatch.order], hmatch.flight⟩

lemma Kept.enqueue {t : SendTrace T} (h : t.Kept) (nowUs : ℕ) (peer : Did) (item : T)
    (class_ : OnionLoopClass) {role : QueueRole} (hrole : role ≠ .endpoint true) :
    (t.enqueue nowUs peer item class_ role).Kept :=
  kept_enqueue h.accounts h.logs h.past h.fresh nowUs peer item class_ role
    (by rw [if_neg hrole]; exact h.counts)

lemma Kept.next {t : SendTrace T} (h : t.Kept) (nowUs : ℕ) (peer : Did) (epoch : BitVec 64)
    (floor : OnionIdleFloor) (credited : Bool) :
    (t.next nowUs peer epoch floor credited).Kept := by
  have haccounts := h.accounts.next peer epoch floor credited nowUs
  rw [SendTrace.next]
  rcases OrderedSendState.next_cases t.state peer epoch floor credited nowUs with heq |
    ⟨lane, hlane, hcases⟩
  · rw [heq] at haccounts ⊢
    exact h
  obtain ⟨hget, -⟩ := OrderedSendState.laneAt_get? hlane
  rcases hcases with ⟨step, hstep, heq⟩ |
    ⟨queued, -, ⟨head, queue, hflight, hqueue, heq⟩ | heq⟩ <;> rw [heq] at haccounts ⊢
  · have hsame : Follows t.logs (t.state.setLane peer { lane with wake := true }).lanes :=
      h.logs.setLane hget fun log hmatch => ⟨hmatch.epoch, hmatch.order, hmatch.flight⟩
    cases step with
    | emit emission => exact absurd rfl (hstep emission)
    | wait dueUs => exact ⟨haccounts, hsame, h.past, h.fresh, h.counts⟩
    | waitCredit => exact ⟨haccounts, hsame, h.past, h.fresh, h.counts⟩
    | stop => exact ⟨haccounts, hsame, h.past, h.fresh, h.counts⟩
  · refine ⟨haccounts, ?_, h.past, h.fresh, h.counts⟩
    refine h.logs.onLog hget fun log hmatch => ⟨hmatch.epoch, ?_, rfl⟩
    have hflight' := hmatch.flight
    rw [hflight, Option.isSome_none, Option.isSome_eq_false_iff, Option.isNone_iff_eq_none]
      at hflight'
    simp [hmatch.order, hflight', hqueue]
  · refine ⟨haccounts, ?_, h.past, h.fresh, h.counts⟩
    exact h.logs.setLane hget fun log hmatch => ⟨hmatch.epoch, hmatch.order, hmatch.flight⟩

lemma Kept.requeue {t : SendTrace T} (h : t.Kept) (peer : Did) (epoch : BitVec 64) (stray : T) :
    (t.requeue peer epoch stray).Kept := by
  have haccounts := h.accounts.requeue peer epoch
    (((t.logs.get? peer).bind LaneLog.sending).getD stray)
  rw [SendTrace.requeue]
  rcases OrderedSendState.requeue_cases t.state peer epoch
    (((t.logs.get? peer).bind LaneLog.sending).getD stray) with heq |
    ⟨lane, flight, hlane, hflight, heq⟩ <;> rw [heq] at haccounts ⊢
  · exact h
  obtain ⟨hget, -⟩ := OrderedSendState.laneAt_get? hlane
  obtain ⟨log, hlog, hmatch⟩ := h.logs.log_of_lane hget
  refine ⟨haccounts, ?_, h.past, h.fresh, h.counts⟩
  -- the cell handed back is the one the history has in flight
  have hsending := hmatch.flight
  rw [hflight, Option.isSome_some, Option.isSome_iff_exists] at hsending
  obtain ⟨item, hitem⟩ := hsending
  dsimp only
  rw [onLog, hlog]
  refine h.logs.insert ⟨hmatch.epoch, ?_, rfl⟩
  simp [hmatch.order, hitem]

lemma Kept.complete {t : SendTrace T} (h : t.Kept) (peer : Did) (epoch : BitVec 64)
    (order : List Did) : (t.complete peer epoch order).Kept := by
  have haccounts := h.accounts.complete t.alive order peer epoch
  rw [SendTrace.complete]
  rcases OrderedSendState.complete_cases h.accounts t.alive order peer epoch with ⟨hnone, -⟩ |
    ⟨lane, flight, s', hlane, hflight, hlanes, hspace, hwaiting, -, -, heq⟩
  · rw [if_neg (by rw [hnone]; nofun)]
    exact h
  rw [if_pos (by rw [hlane, Option.any_some, hflight]; rfl)]
  obtain ⟨hget, -⟩ := OrderedSendState.laneAt_get? hlane
  rw [heq] at haccounts ⊢
  have hwaits := OrderedSendState.waits_wakeOne t.alive order s' peer
  refine ⟨haccounts, ?_, h.past, fun w hw => ?_, fun hclean => ?_⟩
  · dsimp only
    rw [hwaits.lanes, hlanes]
    refine h.logs.onLog hget fun log hmatch => ⟨hmatch.epoch, ?_, rfl⟩
    simp [hmatch.order]
  · dsimp only at hw ⊢
    exact get?_fire (h.fresh w hw) _
  · rw [Bool.and_eq_true] at hclean
    have hpass := OrderedSendState.wakesClean_congr hspace hwaiting hclean.2
    dsimp only
    rw [OrderedSendState.wakeOne_waiting hpass, hwaiting]
    exact (h.counts hclean.1).of_endpoints fun p => endpointsOf_fire t.waits _ p

lemma Kept.close {t : SendTrace T} (h : t.Kept) (nowUs : ℕ) (peer : Did) (order : List Did) :
    (t.close nowUs peer order).Kept := by
  have haccounts := h.accounts.close t.alive order peer nowUs
  rw [SendTrace.close]
  have hpast : ∀ entry ∈ (t.logs.get? peer).toList.map (peer, ·) ++ t.past,
      entry.2.left ++ entry.2.sending.toList <+: entry.2.accepted := by
    intro entry hentry
    rcases List.mem_append.1 hentry with hentry | hentry
    · obtain ⟨log, hlog, rfl⟩ := List.mem_map.1 hentry
      obtain ⟨lane, hmatch⟩ := h.logs.lane_of_log (Option.mem_toList.1 hlog)
      rw [hmatch.order]
      exact List.prefix_append _ _
    · exact h.past entry hentry
  rcases OrderedSendState.close_cases t.state t.alive order peer nowUs with ⟨hget, heq⟩ |
    ⟨lane, s', hget, hs', heq⟩ <;> rw [heq] at haccounts ⊢
  · refine ⟨haccounts, ?_, hpast, h.fresh, fun hclean => ?_⟩
    · intro p
      dsimp only
      rw [BTreeMap.get?_remove]
      split
      · rename_i hp
        rw [hp, hget]
        exact .none
      · exact h.logs p
    · rw [Bool.and_eq_true] at hclean
      exact h.counts hclean.1
  · have hwaits := OrderedSendState.waits_wakeOne t.alive order s' peer
    refine ⟨haccounts, ?_, hpast, fun w hw => ?_, fun hclean => ?_⟩
    · dsimp only
      rw [hwaits.lanes, hs']
      exact h.logs.remove
    · dsimp only at hw ⊢
      exact get?_fire (h.fresh w hw) _
    · rw [Bool.and_eq_true, OrderedSendState.closesClean, hget, Option.isNone_some,
        Bool.false_or] at hclean
      have hpass : s'.wakesClean t.alive order peer = true :=
        OrderedSendState.wakesClean_congr (by rw [hs']) (by rw [hs']) hclean.2
      dsimp only
      rw [OrderedSendState.wakeOne_waiting hpass, hs']
      exact (h.counts hclean.1).of_endpoints fun p => endpointsOf_fire t.waits _ p

lemma Kept.shutdown {t : SendTrace T} (h : t.Kept) (nowUs : ℕ) (peers order : List Did) :
    (t.shutdown nowUs peers order).Kept := by
  have hshut : ({ t with state := { t.state with shut := true } } : SendTrace T).Kept :=
    ⟨h.accounts.congr rfl rfl rfl, h.logs, h.past, h.fresh, h.counts⟩
  rw [SendTrace.shutdown]
  generalize ({ t with state := { t.state with shut := true } } : SendTrace T) = t' at hshut ⊢
  induction peers generalizing t' with
  | nil => exact hshut
  | cons peer peers ih => exact ih _ (hshut.close nowUs peer order)

lemma Kept.step {t t' : SendTrace T} (h : t.Kept) {e : SendEvent T} (he : t.step e = some t') :
    t'.Kept := by
  cases e with
  | openLane nowUs peer => exact Option.some.inj he ▸ h.openLane nowUs peer
  | relay nowUs peer item class_ => exact Option.some.inj he ▸ h.enqueue nowUs peer item class_ nofun
  | «local» nowUs peer item class_ =>
    exact Option.some.inj he ▸ h.enqueue nowUs peer item class_ nofun
  | endpoint nowUs peer item class_ =>
    exact Option.some.inj he ▸ h.enqueue nowUs peer item class_ nofun
  | handBack waiter =>
    rw [SendTrace.step] at he
    split at he
    · cases he
      exact ⟨h.accounts, h.logs, h.past, fun w hw => get?_moveTo (h.fresh w hw) waiter _, fun hclean =>
        (h.counts hclean).of_endpoints fun p => endpointsOf_moveTo t.waits waiter .retrying p⟩
    · cases he
  | retry nowUs waiter item class_ =>
    rw [SendTrace.step] at he
    split at he
    · rename_i peer hget
      cases he
      refine kept_enqueue (t := { t with waits := t.waits.remove waiter }) h.accounts h.logs h.past
        (fun w hw => ?_) nowUs peer item class_ _ fun hclean => ?_
      · dsimp only at hw ⊢
        rw [BTreeMap.get?_remove, h.fresh w hw, ite_self]
      · rw [if_pos rfl]
        exact (h.counts hclean).leave hget
    · cases he
  | dropReceiver waiter =>
    rw [SendTrace.step] at he
    split at he
    · cases he
      exact ⟨h.accounts, h.logs, h.past, fun w hw => get?_moveTo (h.fresh w hw) waiter _, fun hclean =>
        (h.counts hclean).of_endpoints fun p => endpointsOf_moveTo t.waits waiter .abandoned p⟩
    · cases he
  | dropRegistration waiter =>
    rw [SendTrace.step] at he
    split at he
    · rename_i peer hget
      cases he
      have hwaits := OrderedSendState.waits_leave t.state peer
      refine ⟨h.accounts.waits hwaits, ?_, h.past, fun w hw => ?_, fun hclean =>
        (h.counts hclean).leave hget⟩
      · dsimp only
        rw [hwaits.lanes]
        exact h.logs
      · dsimp only at hw ⊢
        rw [BTreeMap.get?_remove, h.fresh w hw, ite_self]
    · cases he
  | next nowUs peer epoch floor credited =>
    exact Option.some.inj he ▸ h.next nowUs peer epoch floor credited
  | requeue peer epoch stray => exact Option.some.inj he ▸ h.requeue peer epoch stray
  | complete peer epoch order => exact Option.some.inj he ▸ h.complete peer epoch order
  | close nowUs peer order => exact Option.some.inj he ▸ h.close nowUs peer order
  | shutdown nowUs peers order =>
    rw [SendTrace.step] at he
    split at he
    · exact Option.some.inj he ▸ h.shutdown nowUs peers order
    · cases he

lemma Reaches.kept {t : SendTrace T} (h : Reaches t) : t.Kept := by
  induction h with
  | start => exact kept_new
  | step e _ he ih => exact ih.step he

/-- An emitter of another epoch changes nothing. -/
lemma stale_epoch {s : OrderedSendState T} {peer : Did} {lane : PeerLane T}
    (hget : s.lanes.get? peer = some lane) {epoch : BitVec 64} (hepoch : epoch ≠ lane.epoch) :
    (∀ floor credited nowUs, s.next peer epoch floor credited nowUs = (s, .stop)) ∧
      (∀ item, s.requeue peer epoch item = (s, false)) ∧
      ∀ alive order, s.complete alive order peer epoch = (s, none) := by
  have hnone : s.laneAt peer epoch = none := by
    rw [OrderedSendState.laneAt, hget, Option.filter_some, if_neg (by simpa using hepoch.symm)]
  refine ⟨fun floor credited nowUs => ?_, fun item => ?_, fun alive order => ?_⟩
  · rw [OrderedSendState.next, hnone]
  · rw [OrderedSendState.requeue, hnone]
  · rw [OrderedSendState.complete, hnone]

/-- While an endpoint is counted, a relay is refused beyond half of the lane. -/
lemma relay_refused {s : OrderedSendState T} {peer : Did} {lane : PeerLane T}
    (hget : s.lanes.get? peer = some lane) (hwaiting : 0 < s.waitingFor peer)
    {class_ : OnionLoopClass} (hhalf : lane.relayed.wouldExceedHalf class_.cellBytes = true)
    (item : T) (nowUs waiter : ℕ) :
    s.enqueue peer item class_ nowUs .relay waiter = (s, .error ⟨.peerFull, item, none⟩) := by
  have hyields : s.relayYields peer class_.cellBytes = true := by
    rw [OrderedSendState.waitingFor] at hwaiting
    cases hcount : s.waiting.get? peer with
    | none =>
      rw [hcount] at hwaiting
      cases hwaiting
    | some count =>
      rw [hcount, Option.getD_some] at hwaiting
      rw [OrderedSendState.relayYields, hcount, hget, Option.any_some, Option.any_some, hhalf,
        decide_eq_true hwaiting]
      rfl
  unfold OrderedSendState.enqueue
  exact if_pos ⟨rfl, hyields⟩

/-- **The onion send queues account for what they hold.** In every run the quota, the bytes and the
relay shares are those of the cells the lanes hold, queued or in flight, and the cells of a lane
leave in the order they came under the one epoch of its emitter. While no wake-up has passed over a
waiter of a lane with endpoints, each lane's count is the number of its endpoints, and so a relay is
refused beyond half of a lane that an endpoint waits for. -/
theorem send_queues_account (t : SendTrace T) (h : Reaches t) :
    t.state.quota.total = t.state.lanes.sumBy (fun _ lane => lane.held.length) ∧
    t.state.pendingBytes = t.state.lanes.sumBy (fun _ lane => PeerLane.bytesOf lane.held) ∧
    (∀ p lane, t.state.lanes.get? p = some lane →
      t.state.quota.peerTotal p = lane.held.length ∧
      lane.pendingBytes = PeerLane.bytesOf lane.held ∧
      lane.relayed = PeerLane.relayedOf lane.held ∧
      (∃ log, t.logs.get? p = some log ∧ log.epoch = lane.epoch ∧
        log.accepted = log.left ++ log.sending.toList ++ lane.queued.map Queued.item ∧
        log.sending.isSome = lane.inFlight.isSome) ∧
      ∀ epoch, epoch ≠ lane.epoch →
        (∀ floor credited nowUs,
          t.state.next p epoch floor credited nowUs = (t.state, .stop)) ∧
        (∀ item, t.state.requeue p epoch item = (t.state, false)) ∧
        ∀ alive order, t.state.complete alive order p epoch = (t.state, none)) ∧
    (∀ entry ∈ t.past, entry.2.left ++ entry.2.sending.toList <+: entry.2.accepted) ∧
    (t.clean = true → ∀ p, t.state.waitingFor p = t.endpoints p ∧
      ∀ lane class_ item nowUs waiter, 0 < t.endpoints p → t.state.lanes.get? p = some lane →
        lane.relayed.wouldExceedHalf class_.cellBytes = true →
        t.state.enqueue p item class_ nowUs .relay waiter =
          (t.state, .error ⟨.peerFull, item, none⟩)) := by
  have hkept := h.kept
  refine ⟨hkept.accounts.total, hkept.accounts.bytes, fun p lane hget => ?_, hkept.past,
    fun hclean p => ?_⟩
  · have hlane := hkept.accounts.lanes p lane hget
    obtain ⟨log, hlog, hmatch⟩ := hkept.logs.log_of_lane hget
    refine ⟨?_, hlane.bytes, hlane.relayed, ⟨log, hlog, hmatch.epoch, hmatch.order, hmatch.flight⟩,
      fun epoch hepoch => stale_epoch hget hepoch⟩
    rw [hkept.accounts.peers.peerTotal, OrderedSendState.cells, hget]
    rfl
  · have hcount := (hkept.counts hclean).waitingFor p
    refine ⟨hcount, fun lane class_ item nowUs waiter hpos hget hhalf => ?_⟩
    exact relay_refused hget (hcount.symm ▸ hpos) hhalf item nowUs waiter

/-- A full lane, an endpoint that waits for it, and the relay it keeps out. -/
theorem send_queues_account_example :
    ∃ t : SendTrace ℕ, new.run [.openLane 0 7, .relay 0 7 1 .miB12, .local 0 7 2 .miB4,
        .endpoint 0 7 3 .kiB16] = some t ∧
      t.state.waitingFor 7 = 1 ∧ t.state.pendingBytes = 16 * 1024 * 1024 := by
  refine ⟨_, rfl, ?_, by decide +kernel⟩
  exact (((send_queues_account _ (.step (.endpoint 0 7 3 .kiB16) (.step (.local 0 7 2 .miB4)
    (.step (.relay 0 7 1 .miB12) (.step (.openLane 0 7) .start rfl) rfl) rfl) rfl)).2.2.2.2
      (by decide +kernel)) 7).1.trans (by decide +kernel)

/-- The waiter of an endpoint that gave up takes the place of one that still waits out of the
count, and a relay passes beyond half of the lane. -/
theorem abandoned_endpoint_uncounted :
    ∃ t : SendTrace ℕ, new.run [.openLane 0 7, .local 0 7 1 .miB4, .relay 0 7 2 .miB12,
        .endpoint 0 7 3 .kiB16, .dropReceiver 0, .dropRegistration 0, .endpoint 0 7 4 .kiB16,
        .next 0 7 0 .default true, .complete 7 0 [7]] = some t ∧
      t.endpoints 7 = 1 ∧ t.state.waitingFor 7 = 0 ∧
      ((t.state.lanes.get? 7).any fun lane =>
        lane.relayed.wouldExceedHalf OnionLoopClass.kiB16.cellBytes) = true ∧
      (t.state.enqueue 7 5 .kiB16 0 .relay 2).2.toBool = true :=
  ⟨_, rfl, by decide +kernel⟩

end SendTrace

end Rings.Onion
