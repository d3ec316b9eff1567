import Rings.QuotaRefinement

/-!
Sequences of reservations.

Three results about every run from an empty table: it answers as a table that never evicts,
no lane outgrows its bound, and one key spends, in any interval, at most a burst and what the
interval replenishes. Undoing the reservations of a run last first gives the records back.
-/

namespace Rings

namespace OriginQuotaTable

variable {t u : OriginQuotaTable} {call : QuotaCall} {now : ℕ}

/-! ### Runs -/

def outcomes (t : OriginQuotaTable) : List QuotaCall →
    List (QuotaCall × Except OriginQuotaAdmissionError OriginQuotaReservation)
  | [] => []
  | call :: calls => (call, (t.reserveCall call).1) :: outcomes (t.reserveCall call).2 calls

def reserveAll (t : OriginQuotaTable) (calls : List QuotaCall) : OriginQuotaTable :=
  calls.foldl (fun t call => (t.reserveCall call).2) t

@[simp] lemma reserveAll_nil : t.reserveAll [] = t := rfl

@[simp] lemma reserveAll_cons (calls : List QuotaCall) :
    t.reserveAll (call :: calls) = (t.reserveCall call).2.reserveAll calls := rfl

lemma reserveAll_append (t : OriginQuotaTable) (cs ds : List QuotaCall) :
    t.reserveAll (cs ++ ds) = (t.reserveAll cs).reserveAll ds := by
  simp [reserveAll, List.foldl_append]

lemma outcomes_append (t : OriginQuotaTable) (cs ds : List QuotaCall) :
    t.outcomes (cs ++ ds) = t.outcomes cs ++ (t.reserveAll cs).outcomes ds := by
  induction cs generalizing t with
  | nil => rfl
  | cons c cs ih => simp only [List.cons_append, outcomes, ih, reserveAll_cons]

end OriginQuotaTable

/-- The answer of a lane whose records are all in use. -/
def refusedForCapacity {α : Type} : Except OriginQuotaAdmissionError α → Bool
  | .error (.verdict (.capacity _)) => true
  | _ => false

namespace OriginQuotaTable

variable {t u : OriginQuotaTable} {call : QuotaCall} {now : ℕ}

/-- The calls of a run that were not refused for capacity. -/
def judged (t : OriginQuotaTable) (calls : List QuotaCall) : List QuotaCall :=
  ((t.outcomes calls).filter fun o => !refusedForCapacity o.2).map (·.1)

def admittedCalls (t : OriginQuotaTable) (calls : List QuotaCall) : List QuotaCall :=
  ((t.outcomes calls).filter fun o => o.2.isOk).map (·.1)

/-- The reservations of a run, first to last. -/
def reservations (t : OriginQuotaTable) (calls : List QuotaCall) : List OriginQuotaReservation :=
  (t.outcomes calls).filterMap fun o => o.2.toOption

/-- Undoes reservations, the last one first. -/
def rollbackAll (rs : List OriginQuotaReservation) (t : OriginQuotaTable) : OriginQuotaTable :=
  rs.foldr OriginQuotaReservation.rollback t

end OriginQuotaTable

def UnboundedQuotaTable.reserveAll (t : UnboundedQuotaTable) (calls : List QuotaCall) :
    UnboundedQuotaTable :=
  calls.foldl (fun t call => (t.reserveCall call).2) t

namespace OriginQuotaTable

variable {t u : OriginQuotaTable} {call : QuotaCall} {now : ℕ}

/-! ### The same answers as a table that never evicts -/

/-- Both tables show the same of every key from `now` on. -/
structure SameView (t : OriginQuotaTable) (v : UnboundedQuotaTable) (now : ℕ) : Prop where
  config : v.config = t.config
  timely : t.Timely now
  timelyUnbounded : v.Timely now
  view : ∀ key later, now ≤ later → t.view key later = v.view key later

lemma SameView.mono {v : UnboundedQuotaTable} (h : SameView t v now) {later : ℕ}
    (hle : now ≤ later) : SameView t v later where
  config := h.config
  timely := h.timely.mono hle
  timelyUnbounded := h.timelyUnbounded.mono hle
  view := fun key l hl => h.view key l (hle.trans hl)

/-- A full lane changes nothing; any other answer is the unbounded table's, and the views stay
the same. -/
lemma SameView.step {v : UnboundedQuotaTable} (h : SameView t v call.now) :
    if refusedForCapacity (t.reserveCall call).1 then (t.reserveCall call).2 = t
    else (t.reserveCall call).1.map (fun _ => ()) = (v.reserveCall call).1 ∧
      SameView (t.reserveCall call).2 (v.reserveCall call).2 call.now := by
  obtain ⟨hans, hconfig, htimely, hview⟩ := UnboundedQuotaTable.reserveCall_view h.timelyUnbounded
  have hkey : v.view call.key call.now = t.view call.key call.now :=
    (h.view call.key call.now (le_refl _)).symm
  rw [hkey] at hans hview
  have hnot : ∀ e, (t.view call.key call.now).spend call.limit call.byteCost = .error e →
      refusedForCapacity (.error e : Except _ OriginQuotaReservation) = false := by
    intro e he
    unfold OriginQuota.spend at he
    split_ifs at he <;> obtain rfl := Except.error.inj he <;> rfl
  generalize hres : t.reserveCall call = res at *
  have ha : Answered t call res.1 res.2 := by
    rw [← hres]
    exact reserveCall_answered h.timely
  obtain ⟨answer, after⟩ := res
  simp only at ha ⊢
  cases ha with
  | refused spent shown =>
    rw [if_neg (by rw [hnot _ spent]; simp)]
    refine ⟨by rw [hans, spent]; rfl, ?_⟩
    refine ⟨by rw [hconfig, h.config, shown.config], shown.timely, htimely,
      fun key later hl => ?_⟩
    rw [shown.view key later hl, hview key later hl, spent]
    split
    · rename_i hk
      subst hk
      change _ = (v.view call.key call.now).settled _ later
      rw [UnboundedQuotaTable.view_settled h.timelyUnbounded call.key hl]
      exact h.view _ _ hl
    · exact h.view _ _ hl
  | full capacity timely => rfl
  | admitted spent shown =>
    rw [if_neg (by simp [refusedForCapacity])]
    refine ⟨by rw [hans, spent]; rfl, ?_⟩
    refine ⟨by rw [hconfig, h.config, shown.config], shown.timely, htimely,
      fun key later hl => ?_⟩
    rw [shown.view key later hl, hview key later hl, spent, h.config]
    split
    · rfl
    · exact h.view _ _ hl

lemma new_sameView (config : OriginQuotaConfig) (now : ℕ) :
    SameView (.new config) (.new config) now where
  config := rfl
  timely := fun _ _ h => by cases h
  timelyUnbounded := fun _ _ h => by cases h
  view := fun _ _ _ => rfl

/-- The calls of a run whose outcome is kept, the last call apart. -/
lemma kept_concat (keep : Except OriginQuotaAdmissionError OriginQuotaReservation → Bool)
    (t : OriginQuotaTable) (calls : List QuotaCall) (call : QuotaCall) :
    ((t.outcomes (calls ++ [call])).filter fun o => keep o.2).map (·.1) =
      ((t.outcomes calls).filter fun o => keep o.2).map (·.1) ++
        if keep ((t.reserveAll calls).reserveCall call).1 then [call] else [] := by
  rw [outcomes_append, List.filter_append, List.map_append]
  congr 1
  simp only [outcomes]
  split
  · rename_i h
    rw [List.filter_cons_of_pos (by simpa using h)]
    rfl
  · rename_i h
    rw [List.filter_cons_of_neg (by simpa using h)]
    rfl

lemma judged_concat (t : OriginQuotaTable) (calls : List QuotaCall) (call : QuotaCall) :
    t.judged (calls ++ [call]) = t.judged calls ++
      if refusedForCapacity ((t.reserveAll calls).reserveCall call).1 then [] else [call] := by
  rw [judged, kept_concat fun r => !refusedForCapacity r, judged]
  cases refusedForCapacity ((t.reserveAll calls).reserveCall call).1 <;> rfl

/-- **Run.** After any timely run both tables show the same, the unbounded one having served
the calls that were not refused for capacity. -/
lemma sameView_run (config : OriginQuotaConfig) {calls : List QuotaCall}
    (hsort : calls.Pairwise (·.now ≤ ·.now)) {now : ℕ} (hnow : ∀ c ∈ calls, c.now ≤ now) :
    SameView ((new config).reserveAll calls)
      ((UnboundedQuotaTable.new config).reserveAll ((new config).judged calls)) now := by
  induction calls using List.reverseRecOn generalizing now with
  | nil => exact new_sameView config now
  | append_singleton calls call ih =>
    rw [List.pairwise_append] at hsort
    have hstep := (ih hsort.1 fun c hc => hsort.2.2 c hc call (List.mem_singleton_self _)).step
    have hcall := hnow call (by simp)
    rw [judged_concat, reserveAll_append]
    simp only [reserveAll_cons, reserveAll_nil]
    split at hstep
    · rename_i hfull
      rw [if_pos hfull, List.append_nil, hstep]
      exact ih hsort.1 fun c hc => hnow c (by simp [hc])
    · rename_i hjudged
      rw [if_neg hjudged]
      unfold UnboundedQuotaTable.reserveAll at hstep ⊢
      rw [List.foldl_append]
      exact hstep.2.mono hcall

/-! ### The bound of a lane -/

lemma laneRecords_eq_sumBy (t : OriginQuotaTable) (lane : MessageCategory) :
    t.laneRecords lane = t.records.sumBy fun k _ => if k.category = lane then 1 else 0 := by
  unfold laneRecords BTreeMap.sumBy
  induction t.records.entries with
  | nil => rfl
  | cons kv l ih =>
    rw [List.map_cons, List.sum_cons, ← ih]
    by_cases h : kv.1.category = lane
    · rw [List.filter_cons_of_pos (by simpa using h), List.length_cons]
      simp only [if_pos h, Nat.add_comm]
    · rw [List.filter_cons_of_neg (by simpa using h)]
      simp only [if_neg h, Nat.zero_add]

lemma laneRecords_insert (t : OriginQuotaTable) (key : OriginQuotaKey) (q : OriginQuota)
    (lane : MessageCategory) :
    laneRecords { t with records := t.records.insert key q } lane +
        (t.records.get? key).elim 0 (fun _ => if key.category = lane then 1 else 0) =
      t.laneRecords lane + if key.category = lane then 1 else 0 := by
  rw [laneRecords_eq_sumBy, laneRecords_eq_sumBy]
  exact BTreeMap.sumBy_insert (fun k _ => if k.category = lane then 1 else 0) t.records key q

lemma laneRecords_remove (t : OriginQuotaTable) (key : OriginQuotaKey) (lane : MessageCategory) :
    laneRecords { t with records := t.records.remove key } lane +
        (t.records.get? key).elim 0 (fun _ => if key.category = lane then 1 else 0) =
      t.laneRecords lane := by
  rw [laneRecords_eq_sumBy, laneRecords_eq_sumBy]
  exact BTreeMap.sumBy_remove (fun k _ => if k.category = lane then 1 else 0) t.records key

/-- Each lane is within its bound. -/
def WithinBounds (t : OriginQuotaTable) : Prop :=
  ∀ lane, t.laneRecords lane ≤ (t.config.lane lane).maxRecords

lemma WithinBounds.step (h : t.WithinBounds) (call : QuotaCall) :
    (t.reserveCall call).2.WithinBounds := by
  unfold reserveCall reserve
  simp only
  rcases hrec : t.records.get? call.key with _ | previous
  · simp only
    split
    · exact h
    split
    · exact h
    split
    · split
      · exact h
      · exact h
      · -- the victim of the lane makes room
        rename_i next _ _ _ _ _ _ victim hv
        obtain ⟨hlane, q, hq, -⟩ := safeVictim_some hv
        intro lane
        have hold := h lane
        have hrem := laneRecords_remove t victim lane
        have hne : call.key ≠ victim := by
          rintro he
          rw [← he, hrec] at hq
          cases hq
        have hins := laneRecords_insert { t with records := t.records.remove victim } call.key next
          lane
        simp only [BTreeMap.get?_remove, if_neg hne, hrec, Option.elim_none] at hins
        simp only [hq, Option.elim_some, hlane] at hrem
        change laneRecords { t with records := (t.records.remove victim).insert call.key next }
          lane ≤ _
        simp only at hold ⊢
        omega
    · rename_i next _ _ _ _ hroom
      intro lane
      have hold := h lane
      have hins := laneRecords_insert t call.key next lane
      simp only [hrec, Option.elim_none] at hins
      change laneRecords { t with records := t.records.insert call.key next } lane ≤ _
      have hlt : t.laneRecords call.key.category <
          (t.config.lane call.key.category).maxRecords := not_le.mp hroom
      by_cases hl : call.key.category = lane
      · subst hl
        rw [if_pos rfl] at hins
        simp only
        omega
      · rw [if_neg hl] at hins
        simp only
        omega
  · have hkeep : ∀ next : OriginQuota,
        WithinBounds { t with records := t.records.insert call.key next } := by
      intro next lane
      have hold := h lane
      have hins := laneRecords_insert t call.key next lane
      simp only [hrec, Option.elim_some] at hins
      simp only at hold ⊢
      omega
    simp only
    split
    · exact h
    split
    · exact hkeep _
    · exact hkeep _

lemma reserveCall_config (t : OriginQuotaTable) (call : QuotaCall) :
    (t.reserveCall call).2.config = t.config := by
  unfold reserveCall reserve
  simp only
  repeat' split
  all_goals rfl

lemma reserveAll_config (t : OriginQuotaTable) (calls : List QuotaCall) :
    (t.reserveAll calls).config = t.config := by
  induction calls generalizing t with
  | nil => rfl
  | cons c cs ih => rw [reserveAll_cons, ih, reserveCall_config]

lemma WithinBounds.run (h : t.WithinBounds) (calls : List QuotaCall) :
    (t.reserveAll calls).WithinBounds := by
  induction calls generalizing t with
  | nil => exact h
  | cons c cs ih => exact ih (h.step c)

/-! ### Undoing a run -/

/-- **Rollback.** Undone last first, the reservations of a run leave the records it began with,
up to refill. -/
lemma refilled_rollbackAll (t : OriginQuotaTable) (calls : List QuotaCall) :
    t.Refilled (rollbackAll (t.reservations calls) (t.reserveAll calls)) := by
  induction calls generalizing t with
  | nil => exact .refl t
  | cons c cs ih =>
    have hrest := ih (t.reserveCall c).2
    rw [reserveAll_cons]
    unfold reservations outcomes
    rcases hres : t.reserveCall c with ⟨e | r, u⟩
    · rw [hres] at hrest
      simp only [List.filterMap_cons, Except.toOption]
      exact (refilled_of_reserve_error hres).trans hrest
    · rw [hres] at hrest
      simp only [List.filterMap_cons, Except.toOption]
      have hback := hrest.rollback r
      rw [rollback_reserve hres] at hback
      exact hback

end OriginQuotaTable

/-! ### What a key spends in an interval -/

inductive QuotaDimension
  | messages
  | bytes

namespace QuotaDimension

def rate (d : QuotaDimension) (c : OriginQuotaLaneConfig) : ℕ :=
  match d with
  | messages => c.messageRatePerSecond
  | bytes => c.byteRatePerSecond

def burst (d : QuotaDimension) (c : OriginQuotaLaneConfig) : ℕ :=
  match d with
  | messages => c.messageBurst
  | bytes => c.byteBurst

def tokens (d : QuotaDimension) (q : OriginQuota) : ℕ :=
  match d with
  | messages => q.messages.scaledTokens
  | bytes => q.bytes.scaledTokens

def cost (d : QuotaDimension) (call : QuotaCall) : ℕ :=
  match d with
  | messages => scaledMessageCost call.limit
  | bytes => chargedBytes call.limit call.byteCost * nanosPerSecond

variable (d : QuotaDimension) {c : OriginQuotaLaneConfig}

lemma tokens_settled (q : OriginQuota) (now : ℕ) :
    d.tokens (q.settled c now) =
      min (d.tokens q + (now - q.lastRefill) * d.rate c) (d.burst c * nanosPerSecond) := by
  cases d
  · exact congrArg TokenBucket.scaledTokens (TokenBucket.refill_eq _ _ c.fits.1 _)
  · exact congrArg TokenBucket.scaledTokens (TokenBucket.refill_eq _ _ c.fits.2 _)

lemma tokens_settledRecord_le (record : Option OriginQuota) (now : ℕ) :
    d.tokens (settledRecord c record now) ≤ d.burst c * nanosPerSecond := by
  cases record with
  | none => cases d <;> exact le_refl _
  | some q =>
    change d.tokens (q.settled c now) ≤ _
    rw [tokens_settled]
    exact Nat.min_le_right _ _

@[simp] lemma cost_messages (call : QuotaCall) :
    messages.cost call = scaledMessageCost call.limit := rfl

@[simp] lemma cost_bytes (call : QuotaCall) :
    bytes.cost call = chargedBytes call.limit call.byteCost * nanosPerSecond := rfl

lemma tokens_consume_messages (s : OriginQuota) (b : TokenBucket) {cost : ℕ}
    (h : cost ≤ s.messages.scaledTokens) :
    messages.tokens { s with messages := s.messages.consume cost, bytes := b } + cost =
      messages.tokens s := Nat.sub_add_cancel h

lemma tokens_consume_bytes (s : OriginQuota) (m : TokenBucket) {cost : ℕ}
    (h : cost ≤ s.bytes.scaledTokens) :
    bytes.tokens { s with messages := m, bytes := s.bytes.consume cost } + cost =
      bytes.tokens s := Nat.sub_add_cancel h

/-- An admitted call was covered, and takes exactly its cost. -/
lemma tokens_spend {s next : OriginQuota} {call : QuotaCall}
    (h : s.spend call.limit call.byteCost = .ok next) :
    d.tokens next + d.cost call = d.tokens s := by
  obtain ⟨hm, hb, hnext⟩ := OriginQuota.spend_ok h
  cases d with
  | messages =>
    rw [hnext, cost_messages]
    exact tokens_consume_messages s _ hm
  | bytes =>
    rw [hnext, cost_bytes]
    exact tokens_consume_bytes s _ hb

end QuotaDimension

namespace OriginQuotaTable

variable {t u : OriginQuotaTable} {call : QuotaCall} {now : ℕ}

/-- The calls of one key that a run admits between two instants. -/
def admittedWithin (t : OriginQuotaTable) (calls : List QuotaCall) (key : OriginQuotaKey)
    (start stop : ℕ) : List QuotaCall :=
  (t.admittedCalls calls).filter fun c => c.key = key ∧ start ≤ c.now ∧ c.now ≤ stop

lemma admittedCalls_concat (t : OriginQuotaTable) (calls : List QuotaCall) (call : QuotaCall) :
    t.admittedCalls (calls ++ [call]) = t.admittedCalls calls ++
      if ((t.reserveAll calls).reserveCall call).1.isOk then [call] else [] :=
  kept_concat Except.isOk t calls call

/-- The potential of one key: what it spent since `start` and what it still shows never exceed
the burst and the refill since `start`. -/
structure Bounded (d : QuotaDimension) (t : OriginQuotaTable) (key : OriginQuotaKey)
    (start stop spent now : ℕ) : Prop where
  spent_le : spent ≤ d.burst (t.config.lane key.category) * nanosPerSecond +
    d.rate (t.config.lane key.category) * (stop - start)
  potential : ∀ later, now ≤ later → start ≤ later →
    spent + d.tokens (t.view key later) ≤
      d.burst (t.config.lane key.category) * nanosPerSecond +
        d.rate (t.config.lane key.category) * (later - start)

variable {d : QuotaDimension} {key : OriginQuotaKey} {start stop spent : ℕ}

lemma Bounded.mono (h : Bounded d t key start stop spent now) (hc : u.config = t.config)
    {next : ℕ} (hnow : now ≤ next)
    (hle : ∀ later, next ≤ later → d.tokens (u.view key later) ≤ d.tokens (t.view key later)) :
    Bounded d u key start stop spent next where
  spent_le := by rw [hc]; exact h.spent_le
  potential := by
    intro later hl hs
    rw [hc]
    have := h.potential later (hnow.trans hl) hs
    have := hle later hl
    omega

/-- **One call.** An admitted call of the key inside the interval moves its cost from the shown
tokens to the spent ones; any other call shows no more than before. -/
lemma Bounded.step (h : Bounded d t key start stop spent call.now) (ht : t.Timely call.now) :
    Bounded d (t.reserveCall call).2 key start stop
      (spent + if (t.reserveCall call).1.isOk ∧ call.key = key ∧ start ≤ call.now ∧
        call.now ≤ stop then d.cost call else 0) call.now := by
  have ha := reserveCall_answered ht
  generalize hres : t.reserveCall call = res at *
  obtain ⟨answer, after⟩ := res
  simp only at ha ⊢
  cases ha with
  | refused _ shown =>
    rw [if_neg (by simp [Except.isOk, Except.toBool]), Nat.add_zero]
    exact h.mono shown.config (le_refl _) fun later hl => by rw [shown.view key later hl]
  | full capacity timely =>
    rw [if_neg (by simp [Except.isOk, Except.toBool]), Nat.add_zero]
    exact h
  | @admitted r next u spentOk shown =>
    by_cases hkey : call.key = key
    · subst hkey
      have htok := d.tokens_spend spentOk
      have hlast : next.lastRefill = call.now := by
        rw [OriginQuota.spend_lastRefill spentOk]
        unfold view settledRecord
        cases t.records.get? call.key <;> rfl
      have hafter : ∀ later, call.now ≤ later → d.tokens (after.view call.key later) =
          min (d.tokens next + (later - call.now) * d.rate (t.config.lane call.key.category))
            (d.burst (t.config.lane call.key.category) * nanosPerSecond) := by
        intro later hl
        rw [shown.view call.key later hl, if_pos rfl, d.tokens_settled, hlast]
      by_cases hin : start ≤ call.now ∧ call.now ≤ stop
      · rw [if_pos ⟨rfl, rfl, hin.1, hin.2⟩]
        have hpot := h.potential call.now (le_refl _) hin.1
        have hstop : d.rate (t.config.lane call.key.category) * (call.now - start) ≤
            d.rate (t.config.lane call.key.category) * (stop - start) :=
          Nat.mul_le_mul_left _ (by omega)
        refine ⟨by rw [shown.config]; omega, fun later hl hs => ?_⟩
        rw [hafter later hl, shown.config]
        have hsplit : d.rate (t.config.lane call.key.category) * (later - start) =
            d.rate (t.config.lane call.key.category) * (call.now - start) +
              (later - call.now) * d.rate (t.config.lane call.key.category) := by
          rw [Nat.mul_comm (later - call.now), ← Nat.mul_add]
          congr 1
          omega
        omega
      · rw [if_neg fun hc => hin hc.2.2, Nat.add_zero]
        refine h.mono shown.config (le_refl _) fun later hl => ?_
        have hsettled : t.view call.key later =
            (t.view call.key call.now).settled (t.config.lane call.key.category) later := by
          unfold view settledRecord
          rcases hrec : t.records.get? call.key with _ | q
          · exact OriginQuota.settled_full.symm
          · exact (OriginQuota.settled_settled (ht _ _ hrec) hl).symm
        have hviewlast : (t.view call.key call.now).lastRefill = call.now := by
          rw [← OriginQuota.spend_lastRefill spentOk, hlast]
        rw [hafter later hl, hsettled, d.tokens_settled, hviewlast]
        omega
    · rw [if_neg fun hc => hkey hc.2.1, Nat.add_zero]
      refine h.mono shown.config (le_refl _) fun later hl => ?_
      rw [shown.view key later hl, if_neg (Ne.symm hkey)]

/-- **Interval.** What one key spends between two instants of a timely run. -/
lemma spent_le_run (config : OriginQuotaConfig) {calls : List QuotaCall}
    (hsort : calls.Pairwise (·.now ≤ ·.now)) (d : QuotaDimension) (key : OriginQuotaKey)
    (start stop : ℕ) {now : ℕ} (hnow : ∀ c ∈ calls, c.now ≤ now) :
    Bounded d ((new config).reserveAll calls) key start stop
      (((new config).admittedWithin calls key start stop).map d.cost).sum now := by
  induction calls using List.reverseRecOn generalizing now with
  | nil =>
    refine ⟨Nat.zero_le _, fun later _ _ => ?_⟩
    have := d.tokens_settledRecord_le (c := config.lane key.category) none later
    simp only [admittedWithin, admittedCalls, outcomes, List.filter_nil, List.map_nil,
      List.sum_nil, Nat.zero_add]
    exact Nat.le_add_right_of_le this
  | append_singleton calls call ih =>
    rw [List.pairwise_append] at hsort
    have hcalls : ∀ c ∈ calls, c.now ≤ call.now :=
      fun c hc => hsort.2.2 c hc call (List.mem_singleton_self _)
    have hstep := (ih hsort.1 hcalls).step (sameView_run config hsort.1 hcalls).timely
    have hsum : (((new config).admittedWithin (calls ++ [call]) key start stop).map d.cost).sum =
        (((new config).admittedWithin calls key start stop).map d.cost).sum +
          if (((new config).reserveAll calls).reserveCall call).1.isOk ∧ call.key = key ∧
            start ≤ call.now ∧ call.now ≤ stop then d.cost call else 0 := by
      unfold admittedWithin
      rw [admittedCalls_concat, List.filter_append, List.map_append, List.sum_append]
      congr 1
      by_cases hok : (((new config).reserveAll calls).reserveCall call).1.isOk = true
      · rw [if_pos hok]
        by_cases hin : call.key = key ∧ start ≤ call.now ∧ call.now ≤ stop
        · rw [List.filter_cons_of_pos (by simpa using hin), if_pos ⟨hok, hin⟩]
          simp
        · rw [List.filter_cons_of_neg (by simpa using hin), if_neg fun h => hin h.2]
          simp
      · rw [if_neg hok, if_neg fun h => hok h.1]
        simp
    rw [hsum, reserveAll_append]
    exact hstep.mono rfl (hnow call (by simp)) fun _ _ => le_refl _

/-! ### The result -/

/-- The answers of a bounded table are those of a table that never evicts and is given the calls
the bounded one did not refuse for capacity. -/
def AnswersAsUnbounded (config : OriginQuotaConfig) (calls : List QuotaCall) : Prop :=
  ∀ before call after, calls = before ++ call :: after →
    let answer := (((new config).reserveAll before).reserveCall call).1
    refusedForCapacity answer = false → answer.map (fun _ => ()) =
      (((UnboundedQuotaTable.new config).reserveAll ((new config).judged before)).reserveCall
        call).1

/-- **The bounded quota table.** In every run of timely calls the table answers as one that never
evicts and never saw the calls refused for capacity; every lane keeps its bound; undoing the
reservations of any part of the run last first gives back the records it began with, up to
refill; and one key is admitted, in any interval, at most the burst and what the interval
replenishes, in bytes charged and in enforced messages. -/
theorem quota_table_bounded (config : OriginQuotaConfig) (calls : List QuotaCall)
    (hsort : calls.Pairwise (·.now ≤ ·.now)) :
    AnswersAsUnbounded config calls ∧
    (∀ lane, ((new config).reserveAll calls).laneRecords lane ≤ (config.lane lane).maxRecords) ∧
    (∀ before after, calls = before ++ after →
      ((new config).reserveAll before).Refilled
        (rollbackAll (((new config).reserveAll before).reservations after)
          ((new config).reserveAll calls))) ∧
    ∀ (key : OriginQuotaKey) (start stop : ℕ),
      let c := config.lane key.category
      let admitted := (new config).admittedWithin calls key start stop
      (admitted.map fun call => chargedBytes call.limit call.byteCost).sum * nanosPerSecond ≤
          c.byteBurst * nanosPerSecond + c.byteRatePerSecond * (stop - start) ∧
        (admitted.filter fun call => call.limit = .enforced).length * nanosPerSecond ≤
          c.messageBurst * nanosPerSecond + c.messageRatePerSecond * (stop - start) := by
  refine ⟨?_, ?_, ?_, ?_⟩
  · rintro before call after rfl answer hjudged
    rw [List.pairwise_append] at hsort
    have hview := sameView_run config hsort.1
      fun c hc => hsort.2.2 c hc call List.mem_cons_self
    have hstep := hview.step
    rw [if_neg (by simpa using hjudged)] at hstep
    exact hstep.1
  · intro lane
    have hbound : (new config).WithinBounds := fun lane => Nat.zero_le _
    have hrun := hbound.run calls lane
    rwa [reserveAll_config] at hrun
  · rintro before after rfl
    rw [reserveAll_append]
    exact refilled_rollbackAll _ after
  · intro key start stop c admitted
    obtain ⟨last, hlast⟩ : ∃ last, ∀ c ∈ calls, c.now ≤ last :=
      ⟨(calls.map (·.now)).sum, fun c hc => List.le_sum_of_mem (List.mem_map_of_mem hc)⟩
    have hrun := fun d => (spent_le_run config hsort d key start stop hlast).spent_le
    simp only [reserveAll_config] at hrun
    refine ⟨?_, ?_⟩
    · rw [← List.sum_map_mul_right]
      exact hrun .bytes
    · have hcount : (admitted.filter fun call => call.limit = .enforced).length *
          nanosPerSecond = (admitted.map QuotaDimension.messages.cost).sum := by
        generalize admitted = l
        induction l with
        | nil => simp
        | cons call l ih =>
          rw [List.map_cons, List.sum_cons, ← ih]
          rcases hlimit : call.limit with _ | _
          · rw [List.filter_cons_of_pos (by simpa using hlimit), List.length_cons]
            simp only [QuotaDimension.cost_messages, hlimit, scaledMessageCost]
            ring
          · rw [List.filter_cons_of_neg (by simp [hlimit])]
            simp only [QuotaDimension.cost_messages, hlimit, scaledMessageCost, Nat.zero_add]
      rw [hcount]
      exact hrun .messages

/-- One message and one byte a second, for one origin a lane. -/
def singleOrigin : OriginQuotaConfig :=
  let lane : OriginQuotaLaneConfig := ⟨1, 1, 1, 1, 1, by decide, by decide⟩
  ⟨lane, lane, lane, lane⟩

def probe (origin : Did) (now : ℕ) : QuotaCall :=
  ⟨⟨0, origin, 0, .application⟩, .enforced, 0, now⟩

/-- A table that never evicts and sees every call does not answer alike: it charges a call that
the bounded table refuses for capacity, and later refuses what the bounded table admits. -/
theorem quota_table_differs_from_all_seeing :
    ¬ ∀ (config : OriginQuotaConfig) (calls : List QuotaCall), calls.Pairwise (·.now ≤ ·.now) →
      ∀ before call after, calls = before ++ call :: after →
        let answer := (((new config).reserveAll before).reserveCall call).1
        refusedForCapacity answer = false → answer.map (fun _ => ()) =
          (((UnboundedQuotaTable.new config).reserveAll before).reserveCall call).1 := by
  intro h
  have hfail := h singleOrigin [probe 1 0, probe 2 1, probe 2 1000000000] (by decide)
    [probe 1 0, probe 2 1] (probe 2 1000000000) [] rfl (by decide +kernel)
  have hok := congrArg Except.isOk hfail
  revert hok
  decide +kernel

/-- Two origins share a table for one: the second waits until the first is replenished. -/
theorem quota_table_bounded_single :
    AnswersAsUnbounded singleOrigin [probe 1 0, probe 2 1, probe 2 1000000000] ∧
      ∀ lane, ((new singleOrigin).reserveAll
        [probe 1 0, probe 2 1, probe 2 1000000000]).laneRecords lane ≤ 1 := by
  obtain ⟨hanswers, hrecords, -⟩ := quota_table_bounded singleOrigin
    [probe 1 0, probe 2 1, probe 2 1000000000] (by decide)
  refine ⟨hanswers, fun lane => ?_⟩
  have h := hrecords lane
  cases lane <;> exact h

end OriginQuotaTable

end Rings
