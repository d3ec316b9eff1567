import Rings.SendRuns
import Rings.Spacing
import Rings.QuantumLedger

/-!
The emission schedule and the budget of the receiver that charges it.

The emissions to one peer are spaced by their slots through every close and reopen of its lane: a
closed lane's clock is kept until the window after its last emission has passed.
-/

namespace Rings.Onion

variable {T : Type}

def SendEvent.instant (now : ℕ) : SendEvent T → ℕ
  | .openLane nowUs _ => nowUs
  | .relay nowUs _ _ _ => nowUs
  | .local nowUs _ _ _ => nowUs
  | .endpoint nowUs _ _ _ => nowUs
  | .retry nowUs _ _ _ => nowUs
  | .next nowUs _ _ _ _ => nowUs
  | .close nowUs _ _ => nowUs
  | .shutdown nowUs _ _ => nowUs
  | _ => now

namespace SendTrace

inductive Timed : SendTrace T → ℕ → Prop
  | start : Timed new 0
  | step {t t' : SendTrace T} {now : ℕ} (e : SendEvent T) :
      Timed t now → now ≤ e.instant now → t.step e = some t' → Timed t' (e.instant now)

lemma Timed.reaches {t : SendTrace T} {now : ℕ} (h : Timed t now) : Reaches t := by
  induction h with
  | start => exact .start
  | step e _ _ he ih => exact .step e ih he

def startsOf (starts : List EmissionStart) (peer : Did) : List (ℕ × ℕ) :=
  (starts.filter (·.peer = peer)).map fun start => (start.startUs, start.units)

/-- The last emission on the clock of a link: its lane's, or the one kept of a closed lane. -/
def lastStart (s : OrderedSendState T) (peer : Did) : Option (ℕ × ℕ) :=
  match s.lanes.get? peer with
  | some lane => lane.clock.lastStart
  | none => (s.retired.get? peer).bind LinkClock.lastStart

/-- The clocks of the links up to `now`: only a clock whose window has passed is forgotten, and no
clock is kept for an open lane. -/
structure Clocks (s s' : OrderedSendState T) (now : ℕ) : Prop where
  last : ∀ p, lastStart s' p = lastStart s p ∨
    ∀ start, lastStart s p = some start → start.1 + windowUs ≤ now
  open_ : ∀ p lane, s'.lanes.get? p = some lane → s'.retired.get? p = none

/-- The emissions of a run up to `now`. -/
structure Scheduled (t : SendTrace T) (now : ℕ) : Prop where
  spaced : ∀ p, SlotSpaced slotMicros (startsOf t.starts p)
  units : ∀ start ∈ t.starts, start.units ≤ onionLinkMaxUnits
  last : ∀ p start, (startsOf t.starts p).getLast? = some start →
    lastStart t.state p = some start ∨ start.1 + windowUs ≤ now
  open_ : ∀ p lane, t.state.lanes.get? p = some lane → t.state.retired.get? p = none

lemma Scheduled.keep {t t' : SendTrace T} {now now' : ℕ} (h : t.Scheduled now) (hle : now ≤ now')
    (hstarts : t'.starts = t.starts) (hclocks : Clocks t.state t'.state now') :
    t'.Scheduled now' := by
  refine ⟨by rw [hstarts]; exact h.spaced, by rw [hstarts]; exact h.units,
    fun p start hlast => ?_, hclocks.open_⟩
  rw [hstarts] at hlast
  rcases h.last p start hlast with hclock | hpassed
  · rcases hclocks.last p with heq | hforgot
    · exact Or.inl (heq.trans hclock)
    · exact Or.inr (hforgot start hclock)
  · exact Or.inr (by omega)

/-! ### The clocks through a step -/

section Clocks

variable {s s' : OrderedSendState T} {now : ℕ}
  (hopen : ∀ p lane, s.lanes.get? p = some lane → s.retired.get? p = none)

include hopen

lemma clocks_waits (h : OrderedSendState.Waits s s') : Clocks s s' now := by
  refine ⟨fun p => Or.inl ?_, by rw [h.lanes, h.retired]; exact hopen⟩
  rw [lastStart, lastStart, h.lanes, h.retired]

lemma clocks_setLane {peer : Did} {lane lane' : PeerLane T} (hget : s.lanes.get? peer = some lane)
    (hlanes : s'.lanes = s.lanes.insert peer lane') (hretired : s'.retired = s.retired)
    (hclock : lane'.clock.lastStart = lane.clock.lastStart) : Clocks s s' now := by
  refine ⟨fun p => Or.inl ?_, fun p other hother => ?_⟩
  · rw [lastStart, lastStart, hlanes, hretired, BTreeMap.get?_insert]
    by_cases hp : p = peer
    · rw [if_pos hp, hp, hget]
      exact hclock
    · rw [if_neg hp]
  · rw [hlanes, BTreeMap.get?_insert] at hother
    rw [hretired]
    split at hother
    · rename_i hp
      exact hp ▸ hopen peer lane hget
    · exact hopen p other hother

lemma clocks_enqueue (peer : Did) (item : T) (class_ : OnionLoopClass) (nowUs : ℕ)
    (role : QueueRole) (waiter : ℕ) :
    Clocks s (s.enqueue peer item class_ nowUs role waiter).1 now := by
  have hwaits : OrderedSendState.Waits s
      (if role = .endpoint true then s.leave peer else s) := by
    split
    · exact OrderedSendState.waits_leave s peer
    · exact .refl _
  rcases OrderedSendState.enqueue_cases s peer item class_ nowUs role waiter with
    ⟨reason, heq⟩ | ⟨reason, -, heq⟩ | ⟨lane, quota, hget, -, -, heq⟩ <;> rw [heq]
  · exact clocks_waits hopen hwaits
  · exact clocks_waits hopen (hwaits.trans ⟨rfl, rfl, rfl, rfl, rfl, rfl⟩)
  · exact clocks_setLane hopen hget rfl hwaits.retired rfl

lemma clocks_requeue (peer : Did) (epoch : BitVec 64) (item : T) :
    Clocks s (s.requeue peer epoch item).1 now := by
  rcases OrderedSendState.requeue_cases s peer epoch item with heq |
    ⟨lane, flight, hlane, -, heq⟩ <;> rw [heq]
  · exact clocks_waits hopen (.refl s)
  · exact clocks_setLane hopen (OrderedSendState.laneAt_get? hlane).1 rfl rfl rfl

omit hopen in
lemma prune_last (s : OrderedSendState T) (nowUs : ℕ) (p : Did) :
    ((s.pruneRetired nowUs).retired.get? p).bind LinkClock.lastStart =
        (s.retired.get? p).bind LinkClock.lastStart ∨
      ∀ start, (s.retired.get? p).bind LinkClock.lastStart = some start →
        start.1 + windowUs ≤ nowUs := by
  rw [OrderedSendState.pruneRetired, BTreeMap.get?_retain]
  cases hclock : s.retired.get? p with
  | none => exact Or.inl rfl
  | some clock =>
    rw [Option.filter_some, Option.bind_some]
    split
    · exact Or.inl rfl
    · rename_i hpruned
      refine Or.inr fun start hstart => ?_
      rw [hstart, Option.any_some, decide_eq_true_eq] at hpruned
      omega

omit hopen in
lemma prune_none {p : Did} (h : s.retired.get? p = none) (nowUs : ℕ) :
    (s.pruneRetired nowUs).retired.get? p = none := by
  rw [OrderedSendState.pruneRetired, BTreeMap.get?_retain, h]
  rfl

/-- A lane that opens takes the clock kept for it, unless the window has passed. -/
lemma clocks_openLane (peer : Did) (nowUs : ℕ) : Clocks s (s.openLane peer nowUs).1 nowUs := by
  rcases OrderedSendState.openLane_cases s peer nowUs with ⟨heq, -⟩ |
    ⟨retired, rfl, ⟨lane, hget, heq⟩ | ⟨hget, heq⟩⟩ <;> rw [heq]
  · exact clocks_waits hopen (.refl s)
  · refine ⟨fun p => ?_, fun p other hother => ?_⟩
    · rw [lastStart, lastStart]
      dsimp only
      rw [BTreeMap.get?_remove]
      by_cases hp : p = peer
      · rw [hp, hget]
        exact Or.inl rfl
      · rw [if_neg hp]
        split
        · exact Or.inl rfl
        · exact prune_last s nowUs p
    · dsimp only at hother ⊢
      rw [BTreeMap.get?_remove, prune_none (hopen p other hother), ite_self]
  · refine ⟨fun p => ?_, fun p other hother => ?_⟩
    · rw [lastStart, lastStart]
      dsimp only
      rw [BTreeMap.get?_remove, BTreeMap.get?_insert]
      by_cases hp : p = peer
      · rw [if_pos hp, hp, hget]
        have hclock : (((s.pruneRetired nowUs).retired.get? peer).getD .default).lastStart =
            ((s.pruneRetired nowUs).retired.get? peer).bind LinkClock.lastStart := by
          cases (s.pruneRetired nowUs).retired.get? peer <;> rfl
        dsimp only
        rw [hclock]
        exact prune_last s nowUs peer
      · rw [if_neg hp, if_neg hp]
        split
        · exact Or.inl rfl
        · exact prune_last s nowUs p
    · dsimp only at hother ⊢
      rw [BTreeMap.get?_insert] at hother
      rw [BTreeMap.get?_remove]
      split
      · rfl
      · rename_i hp
        rw [if_neg hp] at hother
        exact prune_none (hopen p other hother) nowUs

/-- A lane that closes leaves its clock behind. -/
lemma clocks_close (alive : ℕ → Bool) (order : List Did) (peer : Did) (nowUs : ℕ) :
    Clocks s (s.close alive order peer nowUs).1 nowUs := by
  rcases OrderedSendState.close_cases s alive order peer nowUs with ⟨-, heq⟩ |
    ⟨lane, s', hget, hs', heq⟩ <;> rw [heq]
  · exact clocks_waits hopen (.refl s)
  have hwaits := OrderedSendState.waits_wakeOne alive order s' peer
  refine ⟨fun p => ?_, fun p other hother => ?_⟩
  · rw [lastStart, lastStart, hwaits.lanes, hwaits.retired, hs']
    dsimp only
    rw [BTreeMap.get?_remove, BTreeMap.get?_insert]
    by_cases hp : p = peer
    · rw [if_pos hp, if_pos hp, hp, hget]
      exact Or.inl rfl
    · rw [if_neg hp, if_neg hp]
      split
      · exact Or.inl rfl
      · exact prune_last s nowUs p
  · rw [hwaits.lanes, hs'] at hother
    rw [hwaits.retired, hs']
    dsimp only at hother ⊢
    rw [BTreeMap.get?_remove] at hother
    rw [BTreeMap.get?_insert]
    split
    · rename_i hp
      rw [if_pos hp] at hother
      cases hother
    · rename_i hp
      rw [if_neg hp] at hother
      exact prune_none (hopen p other hother) nowUs

end Clocks

/-! ### Every step keeps the schedule -/

lemma scheduled_new : (new : SendTrace T).Scheduled 0 :=
  ⟨fun _ => .nil, fun _ => nofun, fun _ _ => nofun, fun _ _ => nofun⟩

lemma startsOf_snoc (starts : List EmissionStart) (start : EmissionStart) (p : Did) :
    startsOf (starts ++ [start]) p =
      startsOf starts p ++ if start.peer = p then [(start.startUs, start.units)] else [] := by
  rw [startsOf, List.filter_append, List.map_append, startsOf, List.filter_cons]
  by_cases hp : start.peer = p <;> simp [hp]

/-- An emission starts a slot after the last one to its peer. -/
lemma Scheduled.emit {t t' : SendTrace T} {now nowUs : ℕ} (h : t.Scheduled now) (hle : now ≤ nowUs)
    {peer : Did} {lane lane' : PeerLane T} (hget : t.state.lanes.get? peer = some lane)
    {class_ : OnionLoopClass} {queued credited : Bool} {floor : OnionIdleFloor}
    (hplan : plan lane.clock queued credited floor nowUs = .emit)
    (hlanes : t'.state.lanes = t.state.lanes.insert peer lane')
    (hretired : t'.state.retired = t.state.retired)
    (hclock : lane'.clock.lastStart = some (nowUs, class_.units))
    (hstarts : t'.starts = t.starts ++ [⟨peer, nowUs, class_.units⟩]) : t'.Scheduled nowUs := by
  refine ⟨fun p => ?_, fun start hstart => ?_, fun p start hlast => ?_, fun p other hother => ?_⟩
  · rw [hstarts, startsOf_snoc]
    split
    · rename_i hp
      refine (h.spaced p).snoc fun start hstart => ?_
      rcases h.last p start hstart with hclock' | hpassed
      · rw [lastStart, ← hp, hget] at hclock'
        exact plan_emit hplan hclock'
      · have hunits : start.2 ≤ onionLinkMaxUnits := by
          obtain ⟨e, he, rfl⟩ := List.mem_map.1 (List.mem_of_getLast? hstart)
          exact h.units e (List.mem_filter.1 he).1
        have hslot := slotMicros_le_window hunits
        dsimp only
        omega
    · rw [List.append_nil]
      exact h.spaced p
  · rw [hstarts] at hstart
    rcases List.mem_append.1 hstart with hstart | hstart
    · exact h.units start hstart
    · rw [List.mem_singleton.1 hstart]
      exact OnionLoopClass.units_le class_
  · rw [hstarts, startsOf_snoc] at hlast
    rw [lastStart, hlanes, hretired, BTreeMap.get?_insert]
    by_cases hp : peer = p
    · rw [if_pos hp, List.getLast?_concat] at hlast
      rw [if_pos hp.symm, ← Option.some.inj hlast]
      exact Or.inl hclock
    · rw [if_neg hp, List.append_nil] at hlast
      rw [if_neg (Ne.symm hp)]
      rcases h.last p start hlast with hclock' | hpassed
      · exact Or.inl hclock'
      · exact Or.inr (by omega)
  · rw [hlanes, BTreeMap.get?_insert] at hother
    rw [hretired]
    split at hother
    · rename_i hp
      exact hp ▸ h.open_ peer lane hget
    · exact h.open_ p other hother

lemma Scheduled.next {t : SendTrace T} {now nowUs : ℕ} (h : t.Scheduled now) (hle : now ≤ nowUs)
    (peer : Did) (epoch : BitVec 64) (floor : OnionIdleFloor) (credited : Bool) :
    (t.next nowUs peer epoch floor credited).Scheduled nowUs := by
  rw [SendTrace.next]
  rcases OrderedSendState.next_cases t.state peer epoch floor credited nowUs with heq |
    ⟨lane, hlane, hcases⟩
  · rw [heq]
    exact h.keep hle rfl (clocks_waits h.open_ (.refl _))
  obtain ⟨hget, -⟩ := OrderedSendState.laneAt_get? hlane
  rcases hcases with ⟨step, hstep, heq⟩ |
    ⟨queued, hplan, ⟨head, queue, -, -, heq⟩ | heq⟩ <;> rw [heq]
  · have hclocks : Clocks t.state (t.state.setLane peer { lane with wake := true }) nowUs :=
      clocks_setLane h.open_ hget rfl rfl rfl
    cases step with
    | emit emission => exact absurd rfl (hstep emission)
    | wait dueUs => exact h.keep hle rfl hclocks
    | waitCredit => exact h.keep hle rfl hclocks
    | stop => exact h.keep hle rfl hclocks
  · refine h.emit hle hget hplan rfl rfl rfl ?_
    dsimp only [OrderedSendState.setLane, Emission.class_]
    rw [BTreeMap.get?_insert, if_pos rfl]
    rfl
  · exact h.emit hle hget hplan rfl rfl rfl rfl

lemma Scheduled.close {t : SendTrace T} {now nowUs : ℕ} (h : t.Scheduled now) (hle : now ≤ nowUs)
    (peer : Did) (order : List Did) : (t.close nowUs peer order).Scheduled nowUs :=
  h.keep hle rfl (clocks_close h.open_ t.alive order peer nowUs)

lemma Scheduled.enqueue {t : SendTrace T} {now nowUs : ℕ} (h : t.Scheduled now) (hle : now ≤ nowUs)
    (peer : Did) (item : T) (class_ : OnionLoopClass) (role : QueueRole) :
    (t.enqueue nowUs peer item class_ role).Scheduled nowUs := by
  have hclocks : Clocks t.state (t.state.enqueue peer item class_ nowUs role t.nextWaiter).1 nowUs :=
    clocks_enqueue h.open_ peer item class_ nowUs role t.nextWaiter
  rw [SendTrace.enqueue]
  split <;> rename_i heq <;> rw [heq] at hclocks <;> exact h.keep hle rfl hclocks

lemma Scheduled.complete {t : SendTrace T} {now : ℕ} (h : t.Scheduled now)
    (haccounts : t.state.Accounts) (peer : Did) (epoch : BitVec 64) (order : List Did) :
    (t.complete peer epoch order).Scheduled now := by
  rw [SendTrace.complete]
  rcases OrderedSendState.complete_cases haccounts t.alive order peer epoch with ⟨hnone, -⟩ |
    ⟨lane, flight, s', hlane, hflight, hlanes, -, -, hretired, -, heq⟩
  · rw [if_neg (by simp [hnone])]
    exact h
  rw [if_pos (by rw [hlane, Option.any_some, hflight]; rfl), heq]
  have hwaits := OrderedSendState.waits_wakeOne t.alive order s' peer
  refine h.keep le_rfl rfl ?_
  exact clocks_setLane h.open_ (OrderedSendState.laneAt_get? hlane).1 (hwaits.lanes.trans hlanes)
    (hwaits.retired.trans hretired) rfl

lemma Scheduled.shutdown {t : SendTrace T} {now nowUs : ℕ} (h : t.Scheduled now)
    (hle : now ≤ nowUs) (peers order : List Did) : (t.shutdown nowUs peers order).Scheduled nowUs := by
  have hshut : ({ t with state := { t.state with shut := true } } : SendTrace T).Scheduled nowUs :=
    h.keep hle rfl ⟨fun _ => Or.inl rfl, h.open_⟩
  rw [SendTrace.shutdown]
  generalize ({ t with state := { t.state with shut := true } } : SendTrace T) = t' at hshut ⊢
  induction peers generalizing t' with
  | nil => exact hshut
  | cons peer peers ih => exact ih _ (hshut.close le_rfl peer order)

lemma Scheduled.step {t t' : SendTrace T} {now : ℕ} (h : t.Scheduled now)
    (haccounts : t.state.Accounts) {e : SendEvent T} (hle : now ≤ e.instant now)
    (he : t.step e = some t') : t'.Scheduled (e.instant now) := by
  cases e with
  | openLane nowUs peer =>
    have hclocks := clocks_openLane h.open_ peer nowUs
    rw [SendTrace.step, Option.some.injEq, SendTrace.openLane] at he
    split at he <;> rename_i heq <;> rw [heq] at hclocks <;> subst he <;>
      exact h.keep hle rfl hclocks
  | relay nowUs peer item class_ => exact Option.some.inj he ▸ h.enqueue hle peer item class_ .relay
  | «local» nowUs peer item class_ =>
    exact Option.some.inj he ▸ h.enqueue hle peer item class_ .local
  | endpoint nowUs peer item class_ =>
    exact Option.some.inj he ▸ h.enqueue hle peer item class_ (.endpoint false)
  | handBack waiter =>
    rw [SendTrace.step] at he
    split at he <;> cases he
    exact h.keep hle rfl (clocks_waits h.open_ (.refl _))
  | retry nowUs waiter item class_ =>
    rw [SendTrace.step] at he
    split at he
    · rename_i peer hget
      cases he
      have hleft : ({ t with waits := t.waits.remove waiter } : SendTrace T).Scheduled now :=
        h.keep le_rfl rfl (clocks_waits h.open_ (.refl _))
      exact hleft.enqueue hle peer item class_ (.endpoint true)
    · cases he
  | dropReceiver waiter =>
    rw [SendTrace.step] at he
    split at he <;> cases he
    exact h.keep hle rfl (clocks_waits h.open_ (.refl _))
  | dropRegistration waiter =>
    rw [SendTrace.step] at he
    split at he
    · rename_i peer hget
      cases he
      exact h.keep hle rfl (clocks_waits h.open_ (OrderedSendState.waits_leave _ _))
    · cases he
  | next nowUs peer epoch floor credited =>
    exact Option.some.inj he ▸ h.next hle peer epoch floor credited
  | requeue peer epoch stray =>
    have hclocks : Clocks t.state (t.state.requeue peer epoch
        (((t.logs.get? peer).bind LaneLog.sending).getD stray)).1 now :=
      clocks_requeue h.open_ peer epoch (((t.logs.get? peer).bind LaneLog.sending).getD stray)
    rw [SendTrace.step, Option.some.injEq, SendTrace.requeue] at he
    split at he <;> rename_i heq <;> rw [heq] at hclocks <;> subst he <;>
      exact h.keep hle rfl hclocks
  | complete peer epoch order => exact Option.some.inj he ▸ h.complete haccounts peer epoch order
  | close nowUs peer order => exact Option.some.inj he ▸ h.close hle peer order
  | shutdown nowUs peers order =>
    rw [SendTrace.step] at he
    split at he
    · exact Option.some.inj he ▸ h.shutdown hle peers order
    · cases he

lemma Timed.scheduled {t : SendTrace T} {now : ℕ} (h : Timed t now) : t.Scheduled now := by
  induction h with
  | start => exact scheduled_new
  | step e ht hle he ih => exact ih.step ht.reaches.kept.accounts hle he

end SendTrace

/-! ### The receiver's budget -/

/-- Emissions spaced by their slots carry, in any interval of the window's length, at most nine
tenths of the budget and one cell of the largest class. -/
lemma units_in_window {l : List (ℕ × ℕ)} (h : SlotSpaced slotMicros l)
    (hunits : ∀ e ∈ l, e.2 ≤ onionLinkMaxUnits) {x y : ℕ} (hlen : y ≤ x + windowUs)
    (hin : ∀ e ∈ l, x ≤ e.1 ∧ e.1 ≤ y) :
    emissionRateDenominator * (l.map Prod.snd).sum ≤
      emissionRateNumerator * onionLinkBudgetUnits + emissionRateDenominator * onionLinkMaxUnits := by
  have hsum := h.sum_mul_le (w := windowUs * emissionRateDenominator)
    (r := emissionRateNumerator * onionLinkBudgetUnits)
    (fun u => by rw [← Nat.mul_assoc]; exact units_mul_le_slotMicros u) hunits hin
  have hmax : onionLinkMaxUnits = 768 := rfl
  rw [windowUs_eq] at hsum hlen
  rw [emissionRateDenominator, emissionRateNumerator, onionLinkBudgetUnits,
    onionAdmissionSenderUnits, hmax] at hsum ⊢
  omega

/-- The charge of an emission that arrives `delayUs` after it starts. -/
def chargeOf (delayUs : ℕ) (e : ℕ × ℕ) : QuantumCharge :=
  ⟨(e.1 + delayUs) / 1000 / onionExpiryQuantumMs, e.2⟩

def chargeArrivals (delayUs : ℕ) : QuantumLedger → List (ℕ × ℕ) → Option QuantumLedger
  | ledger, [] => some ledger
  | ledger, e :: es =>
    let charge := chargeOf delayUs e
    (ledger.charged charge.quantum charge.units onionAdmissionSenderUnits).bind fun ledger =>
      chargeArrivals delayUs ledger es

open QuantumLedger in
/-- The arrivals of one aligned window fit the budget. -/
lemma window_fits {l : List (ℕ × ℕ)} (h : SlotSpaced slotMicros l)
    (hunits : ∀ e ∈ l, e.2 ≤ onionLinkMaxUnits) (delayUs s : ℕ) :
    ∑ r ∈ window s, unitsAt (l.map (chargeOf delayUs)) r ≤ onionAdmissionSenderUnits := by
  rw [← sum_units_eq, List.filter_map, List.map_map]
  have hwindow := units_in_window (h.filter fun e => (chargeOf delayUs e).quantum ∈ window s)
    (fun e he => hunits e (List.mem_filter.1 he).1)
    (x := 30000000 * (s - 4) - delayUs) (y := 30000000 * (s + 1) - delayUs)
    (by rw [windowUs_eq]; omega) fun e he => by
      have hin := mem_window.1 (of_decide_eq_true (List.mem_filter.1 he).2)
      rw [chargeOf, Nat.div_div_eq_div_mul, onionExpiryQuantumMs] at hin
      dsimp only at hin
      omega
  have hmax : onionLinkMaxUnits = 768 := rfl
  rw [emissionRateDenominator, emissionRateNumerator, onionLinkBudgetUnits,
    onionAdmissionSenderUnits, hmax] at hwindow
  rw [onionAdmissionSenderUnits]
  change ((l.filter fun e => (chargeOf delayUs e).quantum ∈ window s).map Prod.snd).sum ≤ 16384
  omega

open QuantumLedger in
lemma chargeArrivals_isSome (delayUs : ℕ) {done rest : List (ℕ × ℕ)}
    (h : SlotSpaced slotMicros (done ++ rest)) (hunits : ∀ e ∈ done ++ rest, e.2 ≤ onionLinkMaxUnits)
    {ledger : QuantumLedger} (hbelow : Below ledger (unitsAt (done.map (chargeOf delayUs)))) :
    (chargeArrivals delayUs ledger rest).isSome = true := by
  induction rest generalizing done ledger with
  | nil => rfl
  | cons e rest ih =>
    have hprefix : SlotSpaced slotMicros (done ++ [e]) := by
      refine List.Pairwise.sublist ?_ h
      exact List.Sublist.append_left (List.singleton_sublist.2 List.mem_cons_self) done
    have hadd : ∀ r, unitsAt ((done ++ [e]).map (chargeOf delayUs)) r =
        addAt (unitsAt (done.map (chargeOf delayUs))) (chargeOf delayUs e).quantum e.2 r := by
      intro r
      rw [List.map_append, unitsAt_append, List.map_singleton, unitsAt_cons, addAt]
      by_cases hr : r = (chargeOf delayUs e).quantum
      · rw [if_pos hr, if_pos hr.symm]
        rfl
      · rw [if_neg hr, if_neg (Ne.symm hr)]
        rfl
    have hfuture : ∀ r, (chargeOf delayUs e).quantum < r →
        unitsAt (done.map (chargeOf delayUs)) r = 0 := by
      intro r hr
      refine unitsAt_eq_zero fun c hc hcr => ?_
      obtain ⟨a, ha, rfl⟩ := List.mem_map.1 hc
      have hbefore := (List.pairwise_append.1 hprefix).2.2 a ha e (List.mem_singleton.2 rfl)
      have hle : (chargeOf delayUs a).quantum ≤ (chargeOf delayUs e).quantum :=
        Nat.div_le_div_right (Nat.div_le_div_right (by omega))
      omega
    have hfits := window_fits hprefix (fun a ha => hunits a (by
      rcases List.mem_append.1 ha with ha | ha
      · exact List.mem_append_left _ ha
      · rw [List.mem_singleton.1 ha]
        exact List.mem_append_right _ List.mem_cons_self)) delayUs (chargeOf delayUs e).quantum
    rw [Finset.sum_congr rfl fun r _ => hadd r, sum_addAt,
      if_pos (mem_window.2 ⟨le_rfl, by omega⟩)] at hfits
    have hcharged : ledger.charged (chargeOf delayUs e).quantum (chargeOf delayUs e).units
        onionAdmissionSenderUnits = some (ledger.place _ _) :=
      hbelow.charged hfuture (by decide) hfits
    rw [chargeArrivals, hcharged, Option.bind_some]
    have hplaced : Below (ledger.place (chargeOf delayUs e).quantum (chargeOf delayUs e).units)
        (unitsAt ((done ++ [e]).map (chargeOf delayUs))) := by
      intro r
      rw [hadd]
      exact hbelow.place _ _ r
    exact ih (by rwa [List.append_assoc]) (by rwa [List.append_assoc]) hplaced

namespace SendTrace

/-- **The emission schedule stays inside the receiver's budget.** In every run on a clock that does
not go back, consecutive emissions to one peer start at least a slot apart, any interval as long as
the window carries at most nine tenths of the budget and one cell of the largest class, and a
receiver that charges each cell a constant delay after its start refuses none for the sender's
budget. -/
theorem emissions_within_budget (t : SendTrace T) (now : ℕ) (h : Timed t now) (p : Did) :
    (startsOf t.starts p).IsChain (fun a b => a.1 + slotMicros a.2 ≤ b.1) ∧
    (∀ x, emissionRateDenominator *
        (((startsOf t.starts p).filter fun e => x ≤ e.1 ∧ e.1 ≤ x + windowUs).map Prod.snd).sum ≤
      emissionRateNumerator * onionLinkBudgetUnits + emissionRateDenominator * onionLinkMaxUnits) ∧
    ∀ delayUs, (chargeArrivals delayUs .default (startsOf t.starts p)).isSome = true := by
  have hscheduled := h.scheduled
  have hspaced := hscheduled.spaced p
  have hunits : ∀ e ∈ startsOf t.starts p, e.2 ≤ onionLinkMaxUnits := by
    intro e he
    obtain ⟨start, hstart, rfl⟩ := List.mem_map.1 he
    exact hscheduled.units start (List.mem_filter.1 hstart).1
  refine ⟨hspaced.isChain, fun x => ?_, fun delayUs => ?_⟩
  · refine units_in_window (hspaced.filter _) (fun e he => hunits e (List.mem_filter.1 he).1)
      (x := x) le_rfl fun e he => ?_
    simpa using (List.mem_filter.1 he).2
  · have hnil : startsOf t.starts p = [] ++ startsOf t.starts p := rfl
    rw [hnil] at hspaced hunits
    exact chargeArrivals_isSome delayUs hspaced hunits (QuantumLedger.below_default _)

/-- A lane that emits, closes and emits again when it is reopened. -/
theorem emissions_within_budget_example :
    ∃ t : SendTrace ℕ, startsOf t.starts 7 = [(5, 768), (8000000, 1)] ∧
      (chargeArrivals 3 .default (startsOf t.starts 7)).isSome = true := by
  refine ⟨_, ?_, (emissions_within_budget _ _
    (.step (.next 8000000 7 1 .default true) (.step (.relay 7000000 7 2 .kiB16)
      (.step (.openLane 60 7) (.step (.close 50 7 [])
        (.step (.next 5 7 0 .default true) (.step (.relay 5 7 1 .miB12)
          (.step (.openLane 0 7) .start (by decide) rfl) (by decide) rfl) (by decide) rfl)
        (by decide) rfl) (by decide) rfl) (by decide) rfl) (by decide) rfl) 7).2.2 3⟩
  decide +kernel

end SendTrace

end Rings.Onion
