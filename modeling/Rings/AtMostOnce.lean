import Rings.ReplayHistory

/-!
At-most-once dispatch.

A transaction is presented only while it can be delivered, which ends a clock skew before its
stream may be spent. So once a reading of the clock has retired its stream, no reading a skew
behind finds the transaction deliverable again: what opens the stream anew under the same sequence
is another transaction, of a later lifetime.
-/

namespace Rings

open GroupCommit

def isLiveAt (tsMs ttlMs nowMs : ℕ) : Bool :=
  decide (ttlMs ≤ maxTtlMs ∧ tsMs - tsOffsetToleranceMs ≤ nowMs ∧
    nowMs ≤ saturatingAdd u128Max tsMs ttlMs)

/-- Held in a relay inbox no later than the proof's expiry, and delivered within the inbox time to
live of the hold, by a clock within the skew. -/
def DeliveredFromInbox (tsMs ttlMs nowMs : ℕ) : Prop :=
  ∃ heldMs deliveredMs, heldMs ≤ tsMs + ttlMs ∧ deliveredMs ≤ heldMs + maxRelayInboxTtlMs ∧
    nowMs ≤ deliveredMs + tsOffsetToleranceMs ∧ deliveredMs ≤ nowMs + tsOffsetToleranceMs

/-- A transaction presented while its proof is live or, application mail, out of a relay inbox;
the instant its stream may be spent stays below the end of the clock. -/
def Deliverable (a : Admission) (nowMs : ℕ) : Prop :=
  ∃ tsMs ttlMs, a.spentAtMs = spentAt a.key.category tsMs ttlMs ∧
    tsMs + ttlMs + deliveryHorizonMs a.key.category + tsOffsetToleranceMs ≤ u128Max ∧
    (isLiveAt tsMs ttlMs nowMs = true ∨
      a.key.category = .application ∧ DeliveredFromInbox tsMs ttlMs nowMs)

/-- Every transaction of the run is deliverable when it is presented. -/
def AllDeliverable (events : List ReplayEvent) : Prop :=
  ∀ a now, ReplayEvent.call (.tryAdmit a now) ∈ events ∨
    ReplayEvent.call (.admitRelayed a now) ∈ events → Deliverable a now.wallMs

/-- The readings of the run step back by less than the skew. -/
def ClockSteady (events : List ReplayEvent) : Prop :=
  ∀ (i j : ℕ) (call call' : ReplayCall) (reading reading' : ℕ), i ≤ j → events[i]? = some (.call call) →
    events[j]? = some (.call call') → call.readingMs = some reading →
    call'.readingMs = some reading' → reading < reading' + tsOffsetToleranceMs

def Returned.dispatched (r : Returned) : Option Admission :=
  if r.durable then r.waiter.dispatched else none

lemma Deliverable.before_spent {a : Admission} {nowMs : ℕ} (h : Deliverable a nowMs) :
    nowMs + tsOffsetToleranceMs ≤ a.spentAtMs := by
  obtain ⟨tsMs, ttlMs, hspent, hbound, hlive⟩ := h
  have hsum : a.spentAtMs =
      tsMs + ttlMs + deliveryHorizonMs a.key.category + tsOffsetToleranceMs := by
    rw [hspent, spentAt]
    simp only [saturatingAdd]
    omega
  rcases hlive with hlive | ⟨happ, heldMs, deliveredMs, hheld, hdelivered, hnow, -⟩
  · rw [isLiveAt, decide_eq_true_eq, saturatingAdd] at hlive
    omega
  · have hhorizon : deliveryHorizonMs a.key.category = maxRelayInboxTtlMs + tsOffsetToleranceMs := by
      rw [happ]
      rfl
    omega

lemma Waiter.dispatched_reading {w : Waiter} {a : Admission} (h : w.dispatched = some a) :
    ∃ now, (w.call = .tryAdmit a now ∨ w.call = .admitRelayed a now) ∧
      w.call.readingMs = some now.wallMs := by
  rw [Waiter.dispatched] at h
  split at h
  · rename_i admission now verdict hcall _
    split at h
    · obtain rfl := Option.some.inj h
      exact ⟨now, Or.inl hcall, by rw [hcall]; rfl⟩
    · cases h
  · rename_i admission now hcall _
    obtain rfl := Option.some.inj h
    exact ⟨now, Or.inr hcall, by rw [hcall]; rfl⟩
  · cases h

/-- At-most-once dispatch across failures, crashes and retirement. When two dispatches that were
released share a stream and a sequence, the clock reached between them the instant at which the
stream of the first may be spent, and the second is another transaction, whose stream is spent
strictly later. -/
theorem dispatched_at_most_once (config : OriginQuotaConfig) (shares : Shares)
    (events : List ReplayEvent) (hclock : ClockSteady events) (hdeliver : AllDeliverable events) :
    ((Runtime.start config shares).run events).returned.Pairwise fun x y =>
      ∀ a b, x.dispatched = some a → y.dispatched = some b → a.key = b.key →
        a.sequence = b.sequence → a.spentAtMs < b.spentAtMs ∧
          ∃ i call reading, x.waiter.index < i ∧ i ≤ y.waiter.index ∧
            events[i]? = some (.call call) ∧ call.readingMs = some reading ∧
            a.spentAtMs ≤ reading := by
  obtain ⟨m, hfollows, hsound⟩ := (historyLaws events).run config shares trivial
    (fun k key v _ hv => (by cases hv)) (fun _ _ _ _ _ _ => trivial) le_rfl
  rw [Runtime.after, List.take_length] at hfollows
  have hfact : ∀ x ∈ ((Runtime.start config shares).run events).returned, x.durable = true →
      events[x.waiter.index]? = some (.call x.waiter.call) := by
    intro x hx hdurable
    refine (hsound.facts x.waiter ?_).event
    rw [hfollows.released]
    exact List.mem_map_of_mem (List.mem_filter.2 ⟨hx, hdurable⟩)
  have hpresented : ∀ x ∈ ((Runtime.start config shares).run events).returned, ∀ a,
      x.dispatched = some a → ∃ nowMs, x.durable = true ∧ x.waiter.dispatched = some a ∧
        events[x.waiter.index]? = some (.call x.waiter.call) ∧
        x.waiter.call.readingMs = some nowMs ∧ nowMs + tsOffsetToleranceMs ≤ a.spentAtMs := by
    intro x hx a ha
    rw [Returned.dispatched] at ha
    split at ha
    · rename_i hdurable
      obtain ⟨now, hcall, hread⟩ := Waiter.dispatched_reading ha
      have hevent := hfact x hx hdurable
      refine ⟨now.wallMs, hdurable, ha, hevent, hread, ?_⟩
      refine (hdeliver a now ?_).before_spent
      have hmem := List.mem_of_getElem? hevent
      rcases hcall with hcall | hcall
      · exact Or.inl (hcall ▸ hmem)
      · exact Or.inr (hcall ▸ hmem)
    · cases ha
  have hordered := hsound.ordered
  rw [hfollows.released, List.pairwise_map, List.pairwise_filter] at hordered
  refine hordered.imp_of_mem fun {x y} hx hy hxy a b ha hb hkey hsequence => ?_
  obtain ⟨nowX, hxd, hxa, hxe, hxr, hxs⟩ := hpresented x hx a ha
  obtain ⟨nowY, hyd, hyb, hye, hyr, hys⟩ := hpresented y hy b hb
  obtain ⟨i, call, reading, hi, hcall, hreading, hle⟩ :=
    hxy hxd hyd a b hxa hyb hkey hsequence
  have hback := hclock i y.waiter.index call y.waiter.call reading nowY (Nat.lt_succ_iff.1 hi)
    hcall hye hreading hyr
  have hafter : x.waiter.index < i := by
    by_contra hnot
    have := hclock i x.waiter.index call x.waiter.call reading nowX (Nat.le_of_not_lt hnot) hcall
      hxe hreading hxr
    omega
  exact ⟨by omega, i, call, reading, hafter, Nat.lt_succ_iff.1 hi, hcall, hreading, hle⟩

/-! ### A sequence used again -/

def reusedKey : StreamKey := ⟨0, 0, 0, .storage⟩

/-- A transaction of the first sequence, signed at `tsMs` for a second. -/
def reusedSequence (digest : TransactionDigest) (tsMs : ℕ) : Admission :=
  ⟨reusedKey, 0, digest, ⟨.storage, .enforced⟩, 0, .localNode, spentAt .storage tsMs 1000⟩

def reuseRun : List ReplayEvent :=
  [.call (.tryAdmit (reusedSequence 1 10000) ⟨0, 10000⟩), .take, .settle true fun _ => true,
    .call (.tryAdmit (reusedSequence 2 20000) ⟨0, 20000⟩), .take, .settle true fun _ => true]

lemma reuseRun_calls {i : ℕ} {call : ReplayCall} (h : reuseRun[i]? = some (.call call)) :
    i = 0 ∧ call = .tryAdmit (reusedSequence 1 10000) ⟨0, 10000⟩ ∨
      i = 3 ∧ call = .tryAdmit (reusedSequence 2 20000) ⟨0, 20000⟩ := by
  rcases i with _ | _ | _ | _ | _ | _ | i
  · cases h
    exact Or.inl ⟨rfl, rfl⟩
  · cases h
  · cases h
  · cases h
    exact Or.inr ⟨rfl, rfl⟩
  · cases h
  · cases h
  · cases h

lemma reuseRun_steady : ClockSteady reuseRun := by
  intro i j call call' reading reading' hij hi hj hr hr'
  rcases reuseRun_calls hi with ⟨rfl, rfl⟩ | ⟨rfl, rfl⟩ <;>
    rcases reuseRun_calls hj with ⟨rfl, rfl⟩ | ⟨rfl, rfl⟩ <;> cases hr <;> cases hr'
  · decide
  · decide
  · exact absurd hij (by decide)
  · decide

lemma reusedSequence_deliverable (digest : TransactionDigest) (tsMs : ℕ) (h : tsMs ≤ 20000) :
    Deliverable (reusedSequence digest tsMs) tsMs := by
  have hmax : 40000 ≤ u128Max := by decide
  refine ⟨tsMs, 1000, rfl, ?_, Or.inl ?_⟩
  · have hhorizon : deliveryHorizonMs (reusedSequence digest tsMs).key.category = 0 := rfl
    rw [hhorizon, tsOffsetToleranceMs]
    omega
  · rw [isLiveAt, decide_eq_true_eq, saturatingAdd, tsOffsetToleranceMs]
    refine ⟨by decide, by omega, ?_⟩
    omega

lemma reuseRun_deliverable : AllDeliverable reuseRun := by
  intro a now h
  have hcall : ∃ call, ReplayEvent.call call ∈ reuseRun ∧
      (call = .tryAdmit a now ∨ call = .admitRelayed a now) := by
    rcases h with h | h
    · exact ⟨_, h, Or.inl rfl⟩
    · exact ⟨_, h, Or.inr rfl⟩
  obtain ⟨call, hmem, hcall⟩ := hcall
  obtain ⟨i, hi⟩ := List.mem_iff_getElem?.1 hmem
  rcases reuseRun_calls hi with ⟨-, rfl⟩ | ⟨-, rfl⟩ <;> rcases hcall with hcall | hcall <;> cases hcall
  · exact reusedSequence_deliverable 1 10000 (by decide)
  · exact reusedSequence_deliverable 2 20000 (by decide)

theorem dispatched_at_most_once_reuse :
    ClockSteady reuseRun ∧ AllDeliverable reuseRun ∧
      ((Runtime.start .default receiverStreamShares).run reuseRun).returned.Pairwise fun x y =>
        ∀ a b, x.dispatched = some a → y.dispatched = some b → a.key = b.key →
          a.sequence = b.sequence → a.spentAtMs < b.spentAtMs ∧
            ∃ i call reading, x.waiter.index < i ∧ i ≤ y.waiter.index ∧
              reuseRun[i]? = some (.call call) ∧ call.readingMs = some reading ∧
              a.spentAtMs ≤ reading :=
  ⟨reuseRun_steady, reuseRun_deliverable,
    dispatched_at_most_once _ _ reuseRun reuseRun_steady reuseRun_deliverable⟩

/-- Two transactions of one stream and sequence are dispatched, once the stream of the first was
retired. -/
theorem sequence_dispatched_twice :
    ClockSteady reuseRun ∧ AllDeliverable reuseRun ∧
      (((Runtime.start .default receiverStreamShares).run reuseRun).returned.filterMap
        Returned.dispatched).map (fun a => (a.key, a.sequence, a.digest)) =
        [(reusedKey, 0, 1), (reusedKey, 0, 2)] :=
  ⟨reuseRun_steady, reuseRun_deliverable, by decide +kernel⟩

end Rings
