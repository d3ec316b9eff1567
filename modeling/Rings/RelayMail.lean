import Rings.RelayInbox
import Rings.ReplayStreams

/-!
Stored mail and the room of its receiver.

An element this node had no room for is kept at its holder, unless it is stranded: it lacked a
stream, because its stream is new and the stream table or the share of the inbox is spent or because
its record does not restore, and its batch was written; or no runtime ran or answered its admission.
Then the pass takes the refusal for one of core and removes the element.
-/

namespace Rings.RelayInbox

open Effect

/-! ### What a transition refuses -/

def Throws {σ ε α : Type} (P : ε → Prop) (m : Effect σ ε α) : Prop :=
  ∀ s e t, outcome m s = (.error e, t) → P e

section Throws

variable {σ ε α β : Type} {P : ε → Prop}

lemma throws_pure (a : α) : Throws P (pure a : Effect σ ε α) := by
  intro s e t h
  cases h

lemma throws_throw {e : ε} (h : P e) : Throws P (throw e : Effect σ ε α) := by
  intro s e' t he
  cases he
  exact h

lemma throws_get : Throws P (get : Effect σ ε σ) := by
  intro s e t h
  cases h

lemma throws_modify (f : σ → σ) : Throws P (modify f : Effect σ ε PUnit) := by
  intro s e t h
  cases h

lemma Throws.bind {m : Effect σ ε α} {f : α → Effect σ ε β} (hm : Throws P m)
    (hf : ∀ a, Throws P (f a)) : Throws P (m >>= f) := by
  intro s e t h
  rcases hout : outcome m s with ⟨e' | a, s'⟩
  · rw [outcome_bind_of_error hout] at h
    cases h
    exact hm _ _ _ hout
  · rw [outcome_bind_of_ok hout] at h
    exact hf a _ _ _ h

lemma throws_forM {f : α → Effect σ ε PUnit} (hf : ∀ a, Throws P (f a)) (l : List α) :
    Throws P (l.forM f) := by
  induction l with
  | nil => exact throws_pure _
  | cons a l ih => exact (hf a).bind fun _ => ih

end Throws

/-- The refusals of this node's own that the pass does not defer: for want of a stream, or of a
runtime. -/
def Undeferred : ReplayError → Prop
  | .streamUnavailable _ _ => True
  | .streamCapacityExceeded _ _ => True
  | .unscheduled => True
  | _ => False

namespace Replay

open Rings.Replay

lemma throws_writeReceiver (key : StreamKey) :
    Throws (fun e => ¬ Undeferred e) (writeReceiver key) := by
  refine throws_get.bind fun l => ?_
  split
  · exact throws_modify _
  · rename_i e he
    refine throws_throw ?_
    unfold ReplayTables.receiverRecord at he
    split at he
    · cases he
    · obtain rfl := Except.error.inj he
      exact id

lemma throws_retireSpent (nowMs : ℕ) :
    Throws (fun e => ¬ Undeferred e) (retireSpent nowMs) := by
  refine Throws.bind (throws_get.bind fun l => throws_forM (fun kv => ?_) _) fun _ => ?_
  · exact (throws_modify _).bind fun _ => throws_writeReceiver _
  · exact throws_get.bind fun l => throws_modify _

lemma refuseUnavailable_eq {table : ReplayTable} {key : StreamKey} {l : Ledger}
    (h : l.state.store.unavailableRecord table key = none) :
    outcome (refuseUnavailable table key) l = (.ok (), l) := by
  rw [refuseUnavailable, outcome_bind_of_ok (outcome_get _)]
  simp only [h]
  rfl

lemma refuseUnavailable_some {table : ReplayTable} {key : StreamKey} {l : Ledger}
    {record : RecordKey} (h : l.state.store.unavailableRecord table key = some record) :
    outcome (refuseUnavailable table key) l = (.error (.streamUnavailable key record), l) := by
  rw [refuseUnavailable, outcome_bind_of_ok (outcome_get _)]
  simp only [h]
  rfl

def bounds (l : Ledger) (introducer : Principal) : Except ShareRefusal Unit :=
  l.state.store.admitsNewStream .receiver >>= fun _ => l.state.accounting.tryAdmit introducer

def PastBounds (l : Ledger) (a : Admission) : Prop :=
  l.tables.receiver.get? a.key = none ∧ ∃ refusal, bounds l a.introducer = .error refusal

lemma throws_refuseRejected (key : StreamKey) (sequence : ℕ) (verdict : SequenceVerdict) :
    Throws (fun e => ¬ Undeferred e) (refuseRejected key sequence verdict) := by
  cases verdict
  case first => exact throws_pure _
  case advance => exact throws_pure _
  case late => exact throws_pure _
  all_goals exact throws_throw id

lemma throws_reserveQuota (a : Admission) (now : ReplayInstant) :
    Throws (fun e => ¬ Undeferred e) (reserveQuota a now) := by
  intro s e t h
  rw [reserveQuota, outcome_bind_of_ok (outcome_get _)] at h
  simp only at h
  split at h
  · cases h
  · cases h
    exact id

/-- Classification lacks a stream only past the bounds of a new one. -/
lemma classify_cases {a : Admission} {l : Ledger}
    (havailable : l.state.store.unavailableRecord .receiver a.key = none) :
    (PastBounds l a ∧ ∃ e, outcome (classify a) l = (.error e, l) ∧ Undeferred e) ∨
      (¬ PastBounds l a ∧ ∀ e l', outcome (classify a) l = (.error e, l') → ¬ Undeferred e) := by
  have hclassify : outcome (classify a) l = outcome (do
      openStream (l.tables.receiver.get? a.key).isNone a.introducer (bounds l a.introducer)
      let observed := observe (l.tables.receiver.get? a.key) a.sequence a.digest
      refuseRejected a.key a.sequence observed.2
      return observed) l := by
    rw [classify, outcome_bind_of_ok (refuseUnavailable_eq havailable),
      outcome_bind_of_ok (outcome_get _)]
    rfl
  rw [hclassify]
  have hrejected : ∀ observed : SequenceState × SequenceVerdict, Throws (fun e => ¬ Undeferred e)
      (do refuseRejected a.key a.sequence observed.2; return observed) :=
    fun observed => (throws_refuseRejected _ _ _).bind fun _ => throws_pure _
  cases hreceiver : l.tables.receiver.get? a.key with
  | some window =>
    right
    refine ⟨fun h => ?_, fun e l' he => ?_⟩
    · rw [PastBounds, hreceiver] at h
      cases h.1
    · exact hrejected _ _ _ _ he
  | none =>
    cases hbounds : bounds l a.introducer with
    | ok u =>
      right
      refine ⟨fun h => ?_, fun e l' he => ?_⟩
      · obtain ⟨-, refusal, hrefusal⟩ := h
        rw [hbounds] at hrefusal
        cases hrefusal
      · exact hrejected _ _ _ _ he
    | error refusal =>
      left
      exact ⟨⟨hreceiver, refusal, hbounds⟩, .streamCapacityExceeded a.introducer refusal, rfl,
        trivial⟩

lemma throws_afterClassify (a : Admission) (now : ReplayInstant) (relayed : Option RelayDelivery)
    (observed : SequenceState × SequenceVerdict) : Throws (fun e => ¬ Undeferred e) (do
      reserveQuota a now
      modify (·.setReceiver a.key observed.1)
      modify (enterCustody a.key relayed)
      modify (enterCharge a)
      writeReceiver a.key
      return observed.2) := by
  refine (throws_reserveQuota a now).bind fun _ => ?_
  refine (throws_modify _).bind fun _ => (throws_modify _).bind fun _ => ?_
  exact (throws_modify _).bind fun _ => (throws_writeReceiver _).bind fun _ => throws_pure _

end Replay

open Rings.Replay in
/-- A relay admission finds no stream to enter: once what is spent is retired, the record of the
stream does not restore, or the delivery is new, custody has room for it, and its stream is new
past the bounds. -/
def FindsNoStream (s : Speculative) (a : Admission) (nowMs : ℕ) : Prop :=
  ∃ l, outcome (retireSpent nowMs) (.new s) = (.ok (), l) ∧
    ((l.state.store.unavailableRecord .receiver a.key).isSome = true ∨
      a.delivery ∉ (l.tables.custody.get? a.key).getD ∅ ∧
        custodyHeld l.tables < relayCustodyCapacity ∧ Replay.PastBounds l a)

open Rings.Replay in
/-- A relay admission is refused for want of a stream exactly when it finds none. -/
lemma admitRelayed_undeferred (s : Speculative) (a : Admission) (now : ReplayInstant) :
    (∃ e, ((ReplayCall.admitRelayed a now).commit s).1 = .error e ∧ Undeferred e) ↔
      FindsNoStream s a now.wallMs := by
  have hcommit : ((ReplayCall.admitRelayed a now).commit s).1 =
      (outcome (ReplayCall.admitRelayed a now).body (.new s)).1 := by
    rw [ReplayCall.commit]
    rcases outcome (ReplayCall.admitRelayed a now).body (.new s) with ⟨_ | _, l⟩ <;> rfl
  rw [hcommit]
  -- the body only wraps the answer
  have hbody : ∀ e, (outcome (ReplayCall.admitRelayed a now).body (.new s)).1 = .error e ↔
      (outcome (admitRelayedAt a now) (.new s)).1 = .error e := by
    intro e
    rw [ReplayCall.body]
    rcases h : outcome (admitRelayedAt a now) (.new s) with ⟨e' | answer, l⟩
    · rw [outcome_bind_of_error h]
      simp only [Except.error.injEq]
    · rw [outcome_bind_of_ok h]
      constructor <;> intro h' <;> cases h'
  simp only [hbody]
  unfold FindsNoStream admitRelayedAt
  rcases hretire : outcome (retireSpent now.wallMs) (.new s) with ⟨e' | ⟨⟩, l⟩
  · rw [outcome_bind_of_error hretire]
    constructor
    · rintro ⟨e, he, hlacks⟩
      obtain rfl := Except.error.inj he
      exact absurd hlacks (Replay.throws_retireSpent _ _ _ _ hretire)
    · rintro ⟨l', hl', -⟩
      cases hl'
  · rw [outcome_bind_of_ok hretire]
    have hledger : ∀ P : Ledger → Prop,
        (∃ l', ((.ok (), l) : Except ReplayError Unit × Ledger) = (.ok (), l') ∧ P l') ↔ P l := by
      intro P
      constructor
      · rintro ⟨l', hl', hP⟩
        cases hl'
        exact hP
      · exact fun hP => ⟨l, rfl, hP⟩
    rw [hledger]
    cases havailable : l.state.store.unavailableRecord .receiver a.key with
    | some record =>
      rw [outcome_bind_of_error (Replay.refuseUnavailable_some havailable)]
      exact ⟨fun _ => Or.inl rfl, fun _ => ⟨_, rfl, trivial⟩⟩
    | none =>
      rw [outcome_bind_of_ok (Replay.refuseUnavailable_eq havailable),
        outcome_bind_of_ok (outcome_get _)]
      simp only [Option.isSome_none, Bool.false_eq_true, false_or]
      by_cases hheld : a.delivery ∈ (l.tables.custody.get? a.key).getD ∅
      · simp only [if_pos hheld]
        constructor
        · rintro ⟨e, he, -⟩
          cases he
        · exact fun h => absurd hheld h.1
      · simp only [if_neg hheld]
        by_cases hfull : custodyHeld l.tables ≥ relayCustodyCapacity
        · simp only [if_pos hfull]
          constructor
          · rintro ⟨e, he, hlacks⟩
            obtain rfl := Except.error.inj he
            exact absurd hlacks id
          · exact fun h => absurd h.2.1 (Nat.not_lt.2 hfull)
        · simp only [if_neg hfull]
          rcases Replay.classify_cases havailable with ⟨hpast, e, he, hlacks⟩ | ⟨hnot, hthrows⟩
          · have hgranted : outcome (admitIn a now (some a.delivery)) l = (.error e, l) := by
              rw [admitIn, outcome_bind_of_error he]
            rw [outcome_bind_of_error hgranted]
            exact ⟨fun _ => ⟨hheld, Nat.not_le.1 hfull, hpast⟩, fun _ => ⟨e, rfl, hlacks⟩⟩
          · refine ⟨fun h => ?_, fun h => absurd h.2.2 hnot⟩
            obtain ⟨e, he, hlacks⟩ := h
            rcases hgranted : outcome (admitIn a now (some a.delivery)) l with ⟨e' | verdict, l'⟩
            · rw [outcome_bind_of_error hgranted] at he
              obtain rfl := Except.error.inj he
              rw [admitIn] at hgranted
              rcases hclassify : outcome (classify a) l with ⟨e'' | observed, l''⟩
              · rw [outcome_bind_of_error hclassify] at hgranted
                cases hgranted
                exact absurd hlacks (hthrows _ _ hclassify)
              · rw [outcome_bind_of_ok hclassify] at hgranted
                exact absurd hlacks (Replay.throws_afterClassify _ _ _ _ _ _ _ hgranted)
            · rw [outcome_bind_of_ok hgranted] at he
              cases he

/-! ### One element -/

/-- A delivery refused for want of local room: of the application inbox or its reader, of the
origin's quota, of custody, of a stream, of the replay store, or of a runtime. -/
def LocalRefusal : Except DeliveryError LocalDelivered → Prop
  | .ok .deferred => True
  | .ok .queued => False
  | .error .storageUnavailable => True
  | .error (.replay (.quota _ _ _)) => True
  | .error (.replay (.relayCustodyFull _)) => True
  | .error (.replay .persistence) => True
  | .error (.replay e) => Undeferred e

structure Refused (r : Runtime) (call : ReplayCall) : Prop where
  error : ∃ e, (call.commit r.state).1 = .error e
  state : r.state.Similar (r.commit call).state
  undo : (r.commit call).journal.opened.undo = r.journal.opened.undo
  records : (r.commit call).journal.opened.records = r.journal.opened.records

/-- Nothing of a transition of `r₀` is left: it refused, or its batch failed. -/
def Undone (r₀ : Runtime) (call : ReplayCall) (r : Runtime) : Prop :=
  Refused r₀ call ∨ r₀.Beneath r.state

lemma refused_of_error {r : Runtime} (h : r.Orderly) {call : ReplayCall} {e : ReplayError}
    (he : (call.commit r.state).1 = .error e) : Refused r call := by
  obtain ⟨hsimilar, hundo, hrecords⟩ := (call.commit_logged h.balanced).2.2 e he
  refine ⟨⟨e, he⟩, hsimilar, ?_, ?_⟩
  · rw [Runtime.commit_eq]
    simp only [Journal.join, hundo, List.append_nil]
  · rw [Runtime.commit_eq]
    simp only [Journal.join, hrecords]
    rfl

namespace ReplayState

variable {s : ReplayState} {meanwhile : List ReplayEvent}
  {alive : ∀ event ∈ meanwhile, event.stops = false} {a : Admission} {now : ReplayInstant}

/-- An admission is stranded: its wait is never answered, or it finds no stream and its batch is
written. -/
def Strands (s : ReplayState) {meanwhile : List ReplayEvent}
    (alive : ∀ event ∈ meanwhile, event.stops = false) (a : Admission) (now : ReplayInstant) :
    Prop :=
  match (s.commit alive (.admitRelayed a now)).1 with
  | none => True
  | some x => x.durable = true ∧ FindsNoStream s.runtime.state a now.wallMs

lemma commit_waited {call : ReplayCall} {x : Returned}
    (h : (s.commit alive call).1 = some x) :
    x.waiter.outcome = (call.commit s.runtime.state).1 ∧
      (x.durable = false → s.runtime.Beneath (s.commit alive call).2.runtime.state) := by
  have hjoin := Runtime.Waits.join s.orderly call
  obtain ⟨hwaiter, hundone⟩ := hjoin.await alive (x := x) (Prod.ext h rfl)
  exact ⟨by rw [hwaiter], hundone⟩

lemma admitRelayed_of_waited {x : Returned} (h : (s.commit alive (.admitRelayed a now)).1 = some x) :
    (s.admitRelayed alive a now).1 = x.result := by
  rw [admitRelayed]
  simp only [h, Option.elim_some]

/-- An admission that was refused and not stranded is undone. -/
lemma admitRelayed_undone {e : ReplayError} (h : (s.admitRelayed alive a now).1 = .error e)
    (hstrands : ¬ s.Strands alive a now) :
    Undone s.runtime (.admitRelayed a now) (s.admitRelayed alive a now).2.runtime := by
  unfold Strands at hstrands
  split at hstrands
  · exact absurd trivial hstrands
  · rename_i x hx
    rw [admitRelayed_of_waited hx, Returned.result] at h
    obtain ⟨houtcome, hundone⟩ := commit_waited hx
    split at h
    · rw [houtcome] at h
      exact Or.inl (refused_of_error s.orderly h)
    · rename_i hfailed
      exact Or.inr (hundone (Bool.not_eq_true _ ▸ hfailed))

lemma admitRelayed_undeferred :
    (∃ e, (s.admitRelayed alive a now).1 = .error e ∧ Undeferred e) ↔ s.Strands alive a now := by
  unfold Strands
  split
  · rename_i hnone
    rw [admitRelayed]
    simp only [hnone, Option.elim_none]
    exact ⟨fun _ => trivial, fun _ => ⟨_, rfl, trivial⟩⟩
  · rename_i x hx
    rw [admitRelayed_of_waited hx, Returned.result, (commit_waited hx).1,
      ← RelayInbox.admitRelayed_undeferred]
    cases x.durable
    · simp [Undeferred]
    · simp

end ReplayState

namespace Moment

variable {m : Moment} {e : InboxElement}

/-- The admission of an element is stranded: no runtime runs it, or the replay store strands it. -/
def Strands (m : Moment) (e : InboxElement) : Prop :=
  (m.receiver.queue.tryReserve e.held.weight).isSome = true ∧
    (m.scheduled = false ∨ ∃ s, m.receiver.storage = .loaded s ∧
      s.Strands m.alive (e.held.admission m.networkId) m.now)

/-- An element left nothing in this node: the queue is as it was, and the replay store too, or the
admission of the element is undone in it. -/
structure Uncommitted (m : Moment) (e : InboxElement) : Prop where
  queue : (m.deliver e).2.queue = m.receiver.queue
  storage : (m.deliver e).2.storage = m.receiver.storage ∨
    ∃ s s', m.receiver.storage = .loaded s ∧ (m.deliver e).2.storage = .loaded s' ∧
      Undone s.runtime (.admitRelayed (e.held.admission m.networkId) m.now) s'.runtime

lemma deliver_undeferred :
    (∃ error, (m.deliver e).1 = .error (.replay error) ∧ Undeferred error) ↔ m.Strands e := by
  unfold Strands deliver
  cases hroom : m.receiver.queue.tryReserve e.held.weight with
  | none => simp
  | some queue =>
    cases hscheduled : m.scheduled with
    | false => simp [Undeferred]
    | true =>
      cases hstorage : m.receiver.storage with
      | absent => simp
      | unread => simp [Undeferred]
      | loaded s =>
        simp only [Option.isSome_some, true_and, Bool.true_eq_false, false_or, if_false,
          ReplayStorage.loaded.injEq, exists_eq_left', ← ReplayState.admitRelayed_undeferred]
        rcases s.admitRelayed m.alive (e.held.admission m.networkId) m.now with ⟨error | answer, s'⟩
        · simp only [Except.error.injEq, DeliveryError.replay.injEq]
        · simp

/-- Only an element queued or stranded changed anything. -/
lemma deliver_uncommitted (h : (m.deliver e).1 ≠ .ok .queued) (hstrands : ¬ m.Strands e) :
    m.Uncommitted e := by
  cases hroom : m.receiver.queue.tryReserve e.held.weight with
  | none =>
    have hdeliver : (m.deliver e).2 = m.receiver := by simp only [deliver, hroom]
    exact ⟨by rw [hdeliver], Or.inl (by rw [hdeliver])⟩
  | some queue =>
    have hqueue := m.receiver.queue.unreserve_tryReserve hroom
    rw [Strands, hroom] at hstrands
    simp only [Option.isSome_some, true_and, not_or, Bool.not_eq_false] at hstrands
    obtain ⟨hscheduled, hstrands⟩ := hstrands
    cases hstorage : m.receiver.storage with
    | absent =>
      have hdeliver : (m.deliver e).2 = { m.receiver with queue := queue.unreserve e.held.weight } := by
        simp [deliver, hroom, hscheduled, hstorage]
      exact ⟨by rw [hdeliver]; exact hqueue, Or.inl (by rw [hdeliver])⟩
    | unread =>
      have hdeliver : (m.deliver e).2 = { m.receiver with queue := queue.unreserve e.held.weight } := by
        simp [deliver, hroom, hscheduled, hstorage]
      exact ⟨by rw [hdeliver]; exact hqueue, Or.inl (by rw [hdeliver])⟩
    | loaded s =>
      have hnot : ¬ s.Strands m.alive (e.held.admission m.networkId) m.now := fun hs =>
        hstrands ⟨s, hstorage, hs⟩
      rcases hgranted : s.admitRelayed m.alive (e.held.admission m.networkId) m.now with
        ⟨error | answer, s'⟩
      · have hundone := ReplayState.admitRelayed_undone (congrArg Prod.fst hgranted) hnot
        rw [hgranted] at hundone
        have hdeliver : (m.deliver e).2 = ⟨.loaded s', queue.unreserve e.held.weight⟩ := by
          simp [deliver, hroom, hscheduled, hstorage, hgranted]
        exact ⟨by rw [hdeliver]; exact hqueue,
          Or.inr ⟨s, s', hstorage, by rw [hdeliver], hundone⟩⟩
      · exact absurd (by simp [deliver, hroom, hscheduled, hstorage, hgranted]) h

lemma visit_of_offers {nowMs : ℕ} {spent : List Did} (h : m.offers nowMs spent e = true) :
    m.visit nowMs spent e =
      (offered (m.deliver e).1, spentAfter spent e.held.origin (m.deliver e).1) := by
  simp only [offers, Bool.and_eq_true, decide_eq_true_eq] at h
  obtain ⟨⟨hunknown, hspent⟩, hdeliverable⟩ := h
  simp [visit, hunknown, hspent, hdeliverable]

/-- An element refused for want of local room is retired only where it is stranded. -/
lemma offered_of_localRefusal (h : LocalRefusal (m.deliver e).1) :
    offered (m.deliver e).1 = .retire ↔ m.Strands e := by
  rw [← deliver_undeferred]
  generalize (m.deliver e).1 = result at h
  rcases result with (_ | error) | _ | _
  · simp [offered, defers]
  · cases error <;> simp_all [offered, defers, Undeferred, LocalRefusal]
  · exact absurd h id
  · simp [offered]

lemma localRefusal_of_strands (h : m.Strands e) :
    LocalRefusal (m.deliver e).1 ∧ offered (m.deliver e).1 = .retire := by
  obtain ⟨error, herror, hlacks⟩ := deliver_undeferred.2 h
  rw [herror]
  cases error <;> first | exact absurd hlacks id | exact ⟨trivial, rfl⟩

end Moment

/-! ### One pass -/

section Pass

variable {nowMs : ℕ} {moments : ℕ → Moment} {index : ℕ} {spent : List Did}
  {elements : List InboxElement} {m : Moment} {e : InboxElement}

lemma retiredFrom_sublist : (retiredFrom nowMs moments index spent elements).Sublist
    (elements.map InboxElement.dot) := by
  induction elements generalizing index spent with
  | nil => exact List.Sublist.refl _
  | cons x elements ih =>
    unfold retiredFrom
    split
    · exact ih.cons_cons _
    · exact ih.cons _
    · exact List.nil_sublist _

lemma mem_offeredFrom {x : InboxElement}
    (h : (m, e) ∈ offeredFrom nowMs moments index spent (x :: elements)) :
    ((moments index).offers nowMs spent x = true ∧ m = moments index ∧ e = x) ∨
      ∃ spent', ((moments index).visit nowMs spent x).1 ≠ .endPass ∧
        ((moments index).visit nowMs spent x).2 = spent' ∧
        (m, e) ∈ offeredFrom nowMs moments (index + 1) spent' elements := by
  unfold offeredFrom at h
  simp only at h
  -- an offer is the visit's own, or comes after a visit that does not end the pass
  have hsplit : ∀ {rest : List (Moment × InboxElement)},
      (m, e) ∈ (if (moments index).offers nowMs spent x then (moments index, x) :: rest else rest) →
        ((moments index).offers nowMs spent x = true ∧ m = moments index ∧ e = x) ∨
          (m, e) ∈ rest := by
    intro rest hmem
    split at hmem
    · rename_i hoffers
      rcases List.mem_cons.1 hmem with hmem | hmem
      · exact Or.inl ⟨hoffers, (Prod.mk.inj hmem).1, (Prod.mk.inj hmem).2⟩
      · exact Or.inr hmem
    · exact Or.inr hmem
  rcases hvisit : (moments index).visit nowMs spent x with ⟨_ | _ | _, spent'⟩
  · rw [hvisit] at h
    exact (hsplit h).imp_right fun hmem => ⟨spent', by simp, rfl, hmem⟩
  · rw [hvisit] at h
    exact (hsplit h).imp_right fun hmem => ⟨spent', by simp, rfl, hmem⟩
  · rw [hvisit] at h
    exact (hsplit h).imp_right fun hmem => by cases hmem

lemma mem_retiredFrom {x : InboxElement} {dot : EntryDot} :
    dot ∈ retiredFrom nowMs moments index spent (x :: elements) ↔
      (((moments index).visit nowMs spent x).1 = .retire ∧ dot = x.dot) ∨
        ((moments index).visit nowMs spent x).1 ≠ .endPass ∧
          dot ∈ retiredFrom nowMs moments (index + 1)
            ((moments index).visit nowMs spent x).2 elements := by
  conv_lhs => unfold retiredFrom
  rcases (moments index).visit nowMs spent x with ⟨_ | _ | _, spent'⟩ <;> simp

lemma mem_of_offered (h : (m, e) ∈ offeredFrom nowMs moments index spent elements) :
    e ∈ elements := by
  induction elements generalizing index spent with
  | nil => cases h
  | cons x elements ih =>
    rcases mem_offeredFrom h with ⟨-, -, rfl⟩ | ⟨spent', -, -, h⟩
    · exact List.mem_cons_self
    · exact List.mem_cons_of_mem _ (ih h)

/-- An element the pass offers and is done with is retired. -/
lemma dot_mem_retired (h : (m, e) ∈ offeredFrom nowMs moments index spent elements)
    (hretire : Moment.offered (m.deliver e).1 = .retire) :
    e.dot ∈ retiredFrom nowMs moments index spent elements := by
  induction elements generalizing index spent with
  | nil => cases h
  | cons x elements ih =>
    rw [mem_retiredFrom]
    rcases mem_offeredFrom h with ⟨hoffers, rfl, rfl⟩ | ⟨spent', hvisit, rfl, h⟩
    · left
      rw [Moment.visit_of_offers hoffers]
      exact ⟨hretire, rfl⟩
    · exact Or.inr ⟨hvisit, ih h⟩

/-- Where dots name elements, an element the pass offers and is not done with stays. -/
lemma dot_notMem_retired (h : (m, e) ∈ offeredFrom nowMs moments index spent elements)
    (hretire : Moment.offered (m.deliver e).1 ≠ .retire)
    (hdots : (elements.map InboxElement.dot).Nodup) :
    e.dot ∉ retiredFrom nowMs moments index spent elements := by
  induction elements generalizing index spent with
  | nil => cases h
  | cons x elements ih =>
    rw [List.map_cons, List.nodup_cons] at hdots
    rw [mem_retiredFrom]
    rintro (⟨hvisit, hdot⟩ | ⟨-, hdot⟩)
    · rcases mem_offeredFrom h with ⟨hoffers, rfl, rfl⟩ | ⟨spent', -, -, h⟩
      · rw [Moment.visit_of_offers hoffers] at hvisit
        exact hretire hvisit
      · refine hdots.1 ?_
        rw [← hdot]
        exact List.mem_map_of_mem (mem_of_offered h)
    · rcases mem_offeredFrom h with ⟨hoffers, rfl, rfl⟩ | ⟨spent', -, rfl, h⟩
      · exact hdots.1 (retiredFrom_sublist.subset hdot)
      · exact ih h hdots.2 hdot

end Pass

def offeredIn (decode : Bytes → Option HeldMessage) (nowMs : ℕ) (moments : ℕ → Moment)
    (inbox : Entry) : List (Moment × InboxElement) :=
  offeredFrom nowMs moments 0 [] (storedInboxElements decode inbox)

/-- An element refused for want of local room is kept at its holder, with nothing committed. -/
def KeepsMail (decode : Bytes → Option HeldMessage) (nowMs : ℕ) (moments : ℕ → Moment)
    (inbox : Entry) : Prop :=
  ∀ p ∈ offeredIn decode nowMs moments inbox, LocalRefusal (p.1.deliver p.2).1 →
    (∀ removal, drain decode nowMs moments inbox = some removal →
      p.2.dot ∉ removal.crdt.dots) ∧ p.1.Uncommitted p.2

def StrandsNone (decode : Bytes → Option HeldMessage) (nowMs : ℕ) (moments : ℕ → Moment)
    (inbox : Entry) : Prop :=
  ∀ p ∈ offeredIn decode nowMs moments inbox, ¬ p.1.Strands p.2

section Drain

variable {decode : Bytes → Option HeldMessage} {nowMs : ℕ} {moments : ℕ → Moment} {inbox : Entry}

lemma drain_dots {removal : Entry} (h : drain decode nowMs moments inbox = some removal) :
    removal.crdt.dots = retiredFrom nowMs moments 0 [] (storedInboxElements decode inbox) := by
  unfold drain at h
  simp only at h
  split at h
  · cases h
  · rw [← Option.some.inj h]
    rfl

lemma drain_of_retired {dot : EntryDot}
    (h : dot ∈ retiredFrom nowMs moments 0 [] (storedInboxElements decode inbox)) :
    ∃ removal, drain decode nowMs moments inbox = some removal ∧ dot ∈ removal.crdt.dots := by
  refine ⟨removalOf inbox _, ?_, h⟩
  unfold drain
  simp only
  rw [if_neg]
  rw [List.isEmpty_iff]
  exact List.ne_nil_of_mem h

end Drain

lemma strandsNone_of_keepsMail {decode : Bytes → Option HeldMessage} {nowMs : ℕ}
    {moments : ℕ → Moment} {inbox : Entry} (hkeeps : KeepsMail decode nowMs moments inbox) :
    StrandsNone decode nowMs moments inbox := by
  intro p hp hlacks
  obtain ⟨hrefusal, hretire⟩ := Moment.localRefusal_of_strands hlacks
  obtain ⟨removal, hremoval, hdot⟩ := drain_of_retired (dot_mem_retired hp hretire)
  exact (hkeeps p hp hrefusal).1 removal hremoval hdot

def mailKey (origin : ℕ) : StreamKey := ⟨0, BitVec.ofNat 160 origin, 0, .application⟩

lemma mailKey_inj {m n : ℕ} (hm : m < 2 ^ 160) (hn : n < 2 ^ 160) (h : mailKey m = mailKey n) :
    m = n := by
  have horigin := congrArg (fun k => k.originAccount.toNat) h
  simp only [mailKey, BitVec.toNat_ofNat] at horigin
  rwa [Nat.mod_eq_of_lt hm, Nat.mod_eq_of_lt hn] at horigin

/-- The replay state once the inbox introduced the streams of `n` origins. -/
def mailStreams : ℕ → Speculative
  | 0 => ⟨.empty, .new .default, .new receiverStreamShares⟩
  | n + 1 =>
    ((Undo.receiver (mailKey n) (some (.first 0 1))).apply (mailStreams n)).setCharge (mailKey n)
      (some ⟨.inbox, 900000⟩)

lemma balanced_mailStreams (n : ℕ) : (mailStreams n).Balanced := by
  induction n with
  | zero =>
    refine ⟨fun x key => ?_, SlotAccounting.exact_new receiverStreamShares⟩
    simp [mailStreams, Speculative.tables, ReplayStore.empty, ReplayTables.empty]
  | succ n ih => exact (Undo.Balanced.apply (u := .receiver _ _) trivial ih).setCharge

/-- What the streams of `n` origins leave: no custody, one stream for each, and a share of the
inbox spent by as many. -/
lemma mailStreams_spec (n : ℕ) (hn : n < 2 ^ 160) :
    (mailStreams n).tables.custody = .empty ∧ (mailStreams n).store.unrestorable = .empty ∧
      (mailStreams n).accounting.shares = receiverStreamShares ∧
      (mailStreams n).accounting.heldBy .inbox = n ∧
      (∀ key c, (mailStreams n).tables.charges.get? key = some c → c.spentAtMs = 900000) ∧
      ∀ m, n ≤ m → m < 2 ^ 160 → (mailStreams n).tables.receiver.get? (mailKey m) = none ∧
        (mailStreams n).tables.charges.get? (mailKey m) = none := by
  induction n with
  | zero => simp [mailStreams, Speculative.tables, ReplayStore.empty, ReplayTables.empty,
      SlotAccounting.new, SlotAccounting.heldBy]
  | succ n ih =>
    obtain ⟨hcustody, hunrestorable, hshares, hheld, hspent, hfresh⟩ := ih (by omega)
    have hnone := (hfresh n le_rfl (by omega)).2
    have haccounting : (mailStreams (n + 1)).accounting =
        (mailStreams n).accounting.charge .inbox 900000 := by
      have hnone' : ((Undo.receiver (mailKey n) (some (.first 0 1))).apply
          (mailStreams n)).tables.charges.get? (mailKey n) = none := hnone
      rw [mailStreams, Speculative.setCharge]
      simp only [hnone', SlotAccounting.recharge, Option.elim_none, Option.elim_some]
      rfl
    have hcharges : (mailStreams (n + 1)).tables.charges =
        (mailStreams n).tables.charges.replace (mailKey n) (some ⟨.inbox, 900000⟩) := rfl
    have hreceiver : (mailStreams (n + 1)).tables.receiver =
        (mailStreams n).tables.receiver.replace (mailKey n) (some (.first 0 1)) := rfl
    refine ⟨hcustody, hunrestorable, ?_, ?_, fun key c hc => ?_, fun m hm hm' => ?_⟩
    · rw [haccounting, SlotAccounting.charge]
      exact hshares
    · rw [haccounting, SlotAccounting.heldBy_charge, if_pos rfl, hheld]
    · rw [hcharges, BTreeMap.get?_replace] at hc
      split at hc
      · rw [← Option.some.inj hc]
      · exact hspent key c hc
    · have hne : mailKey m ≠ mailKey n := fun heq => by
        have := mailKey_inj hm' (by omega) heq
        omega
      rw [hcharges, hreceiver, BTreeMap.get?_replace, BTreeMap.get?_replace, if_neg hne, if_neg hne]
      exact hfresh m (by omega) hm'

/-- With nothing spent and nothing in custody, there is nothing to retire. -/
lemma retireSpent_nothing {s : Speculative} (hs : s.Balanced) {nowMs : ℕ}
    (hcustody : s.tables.custody = .empty)
    (hspent : ∀ key c, s.tables.charges.get? key = some c → nowMs < c.spentAtMs) :
    outcome (Rings.Replay.retireSpent nowMs) (.new s) = (.ok (), .new s) := by
  have hexpire : outcome (Rings.Replay.expireCustody nowMs) (.new s) = (.ok (), .new s) := by
    rw [Rings.Replay.expireCustody, outcome_bind_of_ok (outcome_get _)]
    have hentries : (Ledger.new s).tables.custody.entries = [] := by
      rw [show (Ledger.new s).tables.custody = s.tables.custody from rfl, hcustody]
      rfl
    simp only [hentries, List.filter_nil]
    rfl
  have hnone : s.tables.spentStreams nowMs = [] := by
    refine List.eq_nil_iff_forall_not_mem.2 fun key hkey => ?_
    obtain ⟨c, hc, hle⟩ := hs.indexed.mem_spentStreams.1 hkey
    exact absurd hle (Nat.not_le.2 (hspent key c hc))
  rw [Rings.Replay.retireSpent, outcome_bind_of_ok hexpire, outcome_bind_of_ok (outcome_get _)]
  simp only [show (Ledger.new s).tables.spentStreams nowMs = [] from hnone, List.foldl_nil]
  rfl

/-- A new stream past the share of its introducer is not admitted. -/
lemma findsNoStream_of_spentShare {s : Speculative} (hs : s.Balanced) {a : Admission} {nowMs : ℕ}
    (hcustody : s.tables.custody = .empty)
    (hspent : ∀ key c, s.tables.charges.get? key = some c → nowMs < c.spentAtMs)
    (hreceiver : s.tables.receiver.get? a.key = none)
    (hshare : ∃ refusal, s.accounting.tryAdmit a.introducer = .error refusal) :
    FindsNoStream s a nowMs := by
  refine ⟨_, retireSpent_nothing hs hcustody hspent, Or.inr ⟨?_, ?_, hreceiver, ?_⟩⟩
  · rw [show (Ledger.new s).tables.custody = s.tables.custody from rfl, hcustody]
    simp
  · rw [Rings.Replay.custodyHeld, show (Ledger.new s).tables.custody = s.tables.custody from rfl,
      hcustody]
    decide
  · obtain ⟨refusal, hrefusal⟩ := hshare
    unfold Replay.bounds
    cases (Ledger.new s).state.store.admitsNewStream .receiver with
    | error refusal => exact ⟨refusal, rfl⟩
    | ok u => exact ⟨refusal, hrefusal⟩

/-- A message held for this node by a node that was live for it, from an origin with no stream. -/
def heldMail : HeldMessage where
  txId := 1
  origin := BitVec.ofNat 160 1000
  destination := 0
  relayDestination := 0
  category := .application
  isCustom := true
  sequence := 0
  digest := 7
  dataLen := 16
  weight := 96
  tsMs := 1000
  ttlMs := 60000
  heldAtMs := 1000
  holderVerifies := true
  payloadVerifies := true

def mailInbox : Entry :=
  { Entry.new 1 [[0]] .relayMessage with
    crdt := { EntryCrdt.empty with dots := [⟨.zero, 0⟩] } }

def mailDisk : ℕ → BTreeMap RecordKey StoredStream
  | 0 => .empty
  | n + 1 => (mailDisk n).insert ⟨.receiver, mailKey n⟩
    (.receiver (mailKey n) (.first 0 1) ∅ ⟨.inbox, 900000⟩)

def mailReplay (n : ℕ) : ReplayState where
  runtime := ⟨mailStreams n, .empty, none, mailDisk n, 0, none, none, [], []⟩
  orderly := ⟨balanced_mailStreams n, fun _ hw => (by cases hw), fun _ hx => (by cases hx),
    fun hwriting => (by cases hwriting)⟩

/-- A node whose inbox introduced the streams of `n` origins, and whose flusher writes the batch of
the admission. -/
def mailMoment (n : ℕ) : Moment where
  receiver := ⟨.loaded (mailReplay n), ⟨.claimed, [], 0⟩⟩
  inFlight := fun _ => none
  fired := fun _ => false
  networkId := 0
  now := ⟨0, 1000⟩
  signal := 0
  scheduled := true
  meanwhile := [.take, .settle true fun _ => false]
  alive := by simp [ReplayEvent.stops]

lemma mailMoment_strands {n : ℕ} (hn : n ≤ 1000) (hshare : 768 ≤ n) :
    (mailMoment n).Strands ⟨⟨.zero, 0⟩, 0, heldMail⟩ := by
  refine ⟨rfl, Or.inr ⟨mailReplay n, rfl, ?_⟩⟩
  obtain ⟨x, hx, hdurable⟩ := Runtime.awaitRelease_write (mailReplay n).orderly rfl
    (.admitRelayed (heldMail.admission (mailMoment n).networkId) (mailMoment n).now) fun _ => false
  have hwaited : ((mailReplay n).commit (mailMoment n).alive
      (.admitRelayed (heldMail.admission (mailMoment n).networkId) (mailMoment n).now)).1 =
        some x := hx
  rw [ReplayState.Strands, hwaited]
  refine ⟨hdurable, ?_⟩
  obtain ⟨hcustody, hunrestorable, hshares, hheld, hspent, hfresh⟩ :=
    mailStreams_spec n (hn.trans_lt (by decide))
  refine findsNoStream_of_spentShare (balanced_mailStreams n) hcustody (fun key c hc => ?_)
    (hfresh 1000 hn (by decide)).1 ?_
  · rw [hspent key c hc]
    exact (show 1000 < 900000 by decide)
  · have hintroducer : (heldMail.admission (mailMoment n).networkId).introducer = .inbox := rfl
    refine ⟨.reservedShare n 768, ?_⟩
    rw [hintroducer, SlotAccounting.tryAdmit, SlotAccounting.admitItems, hshares, hheld]
    refine if_neg (show ¬ saturatingAdd usizeMax n 1 ≤ 768 from ?_)
    simp only [saturatingAdd, usizeMax]
    omega

lemma offers_mail (n : ℕ) :
    (mailMoment n).offers 1000 [] ⟨⟨.zero, 0⟩, 0, heldMail⟩ = true := by
  have hdeliverable : InboxElement.isDeliverableAt ⟨⟨.zero, 0⟩, 0, heldMail⟩ 1000 = true := by
    decide
  rw [Moment.offers, hdeliverable]
  rfl

lemma stored_mail : storedInboxElements (fun _ => some heldMail) mailInbox =
    [⟨⟨.zero, 0⟩, 0, heldMail⟩] := by decide

lemma removes_mail {n : ℕ} (hn : n ≤ 1000) (hshare : 768 ≤ n) :
    ¬ KeepsMail (fun _ => some heldMail) 1000 (fun _ => mailMoment n) mailInbox := by
  intro hkeeps
  refine strandsNone_of_keepsMail hkeeps (mailMoment n, ⟨⟨.zero, 0⟩, 0, heldMail⟩) ?_
    (mailMoment_strands hn hshare)
  rw [offeredIn, stored_mail]
  simp only [offeredFrom, offers_mail, if_true]
  exact List.mem_cons_self

end Rings.RelayInbox
