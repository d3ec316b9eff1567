import Rings.OriginQuota

/-!
The bounded quota table beside one that never evicts.

A decision reads one thing: what the record of the key holds once it is refilled up to the
instant of the call, with an absent record read as a full one. The table evicts only a record
that is full at that instant, which reads as an absent one at that instant and ever after. So
the two tables read alike, and each key spends from one token bucket whatever was evicted.
-/

namespace Rings

/-! ### A record read at an instant -/

namespace OriginQuota

variable {c : OriginQuotaLaneConfig} {q s next : OriginQuota} {limit : MessageLimit}
  {byteCost now t u : ℕ}

/-- The record with both buckets refilled up to `now`. -/
def settled (c : OriginQuotaLaneConfig) (q : OriginQuota) (now : ℕ) : OriginQuota :=
  ⟨q.messages.refill c.messageRatePerSecond c.messageBurst (now - q.lastRefill),
    q.bytes.refill c.byteRatePerSecond c.byteBurst (now - q.lastRefill), now⟩

lemma refilled_eq (h : q.lastRefill ≤ now) : q.refilled c now = .ok (q.settled c now) := by
  unfold refilled
  rw [if_neg (by omega)]
  rfl

lemma settled_settled (h : q.lastRefill ≤ t) (h' : t ≤ u) :
    (q.settled c t).settled c u = q.settled c u := by
  have he : t - q.lastRefill + (u - t) = u - q.lastRefill := by omega
  unfold settled
  simp only [TokenBucket.refill_refill _ _ c.fits.1, TokenBucket.refill_refill _ _ c.fits.2, he]

lemma settled_full : (full c t).settled c u = full c u := by
  unfold settled full TokenBucket.full
  simp only [TokenBucket.refill_eq _ _ c.fits.1, TokenBucket.refill_eq _ _ c.fits.2]
  rw [Nat.min_eq_right (by omega), Nat.min_eq_right (by omega)]

/-- What a call takes from a record that is settled at its instant. -/
def spend (s : OriginQuota) (limit : MessageLimit) (byteCost : ℕ) :
    Except OriginQuotaAdmissionError OriginQuota :=
  if !s.messages.has (scaledMessageCost limit) then .error (.verdict .messageRate)
  else if u128Max < chargedBytes limit byteCost * nanosPerSecond then
    .error (.arithmetic .byteCostOverflow)
  else if !s.bytes.has (chargedBytes limit byteCost * nanosPerSecond) then
    .error (.verdict .byteRate)
  else .ok { s with
    messages := s.messages.consume (scaledMessageCost limit)
    bytes := s.bytes.consume (chargedBytes limit byteCost * nanosPerSecond) }

/-- An admission settles the record and spends from it. -/
lemma tryAdmit_cases (h : q.lastRefill ≤ now) :
    (∃ e, q.tryAdmit c limit byteCost now = .error e ∧
      (q.settled c now).spend limit byteCost = .error (.arithmetic e)) ∨
    (∃ verdict rejection, q.tryAdmit c limit byteCost now = .ok (q.settled c now, verdict) ∧
      verdict.rejection = some rejection ∧
      (q.settled c now).spend limit byteCost = .error (.verdict rejection)) ∨
    ∃ next, q.tryAdmit c limit byteCost now = .ok (next, .admitted) ∧
      (q.settled c now).spend limit byteCost = .ok next := by
  unfold tryAdmit spend
  rw [refilled_eq h]
  simp only
  split
  · exact Or.inr (Or.inl ⟨_, _, rfl, rfl, rfl⟩)
  split
  · exact Or.inl ⟨_, rfl, rfl⟩
  split
  · exact Or.inr (Or.inl ⟨_, _, rfl, rfl, rfl⟩)
  · exact Or.inr (Or.inr ⟨_, rfl, rfl⟩)

/-- What is spent was there, and nothing else is taken. -/
lemma spend_ok (h : s.spend limit byteCost = .ok next) :
    scaledMessageCost limit ≤ s.messages.scaledTokens ∧
      chargedBytes limit byteCost * nanosPerSecond ≤ s.bytes.scaledTokens ∧
      next = { s with
        messages := s.messages.consume (scaledMessageCost limit)
        bytes := s.bytes.consume (chargedBytes limit byteCost * nanosPerSecond) } := by
  unfold spend at h
  split at h
  · cases h
  rename_i hm
  split at h
  · cases h
  split at h
  · cases h
  rename_i hb
  rw [Bool.not_eq_true, Bool.not_eq_false'] at hm hb
  exact ⟨of_decide_eq_true hm, of_decide_eq_true hb, (Except.ok.inj h).symm⟩

lemma spend_lastRefill (h : s.spend limit byteCost = .ok next) :
    next.lastRefill = s.lastRefill := by
  rw [(spend_ok h).2.2]

/-- A record that is fully replenished reads as a full one. -/
lemma settled_of_replenished (h : q.fullyReplenishedAt c now = .ok true) :
    q.lastRefill ≤ now ∧ q.settled c now = full c now := by
  unfold fullyReplenishedAt at h
  by_cases hle : q.lastRefill ≤ now
  · rw [refilled_eq hle] at h
    simp only [Except.ok.injEq, Bool.and_eq_true, TokenBucket.isFull, decide_eq_true_eq] at h
    refine ⟨hle, OriginQuota.ext ?_ ?_ rfl⟩
    · exact congrArg TokenBucket.mk h.1
    · exact congrArg TokenBucket.mk h.2
  · have : q.refilled c now = .error .monotonicTimeRegressed := if_pos (by omega)
    rw [this] at h
    cases h

end OriginQuota

/-! ### What a table shows of a key -/

structure QuotaCall where
  key : OriginQuotaKey
  limit : MessageLimit
  byteCost : ℕ
  now : ℕ

/-- The record of a key settled at `now`; a key without record has full buckets. -/
def settledRecord (c : OriginQuotaLaneConfig) (record : Option OriginQuota) (now : ℕ) :
    OriginQuota :=
  record.elim (.full c now) (·.settled c now)

namespace OriginQuotaTable

variable {t u : OriginQuotaTable} {call : QuotaCall} {now : ℕ}

def view (t : OriginQuotaTable) (key : OriginQuotaKey) (now : ℕ) : OriginQuota :=
  settledRecord (t.config.lane key.category) (t.records.get? key) now

/-- No record was refilled after `now`. -/
def Timely (t : OriginQuotaTable) (now : ℕ) : Prop :=
  ∀ key q, t.records.get? key = some q → q.lastRefill ≤ now

def reserveCall (t : OriginQuotaTable) (call : QuotaCall) :
    Except OriginQuotaAdmissionError OriginQuotaReservation × OriginQuotaTable :=
  t.reserve call.key call.limit call.byteCost call.now

/-- The number of records of one lane. -/
def laneRecords (t : OriginQuotaTable) (lane : MessageCategory) : ℕ :=
  (t.records.entries.filter fun kv => kv.1.category = lane).length

/-! ### The victim -/

/-- One candidate of the search for a victim. -/
def considerVictim (c : OriginQuotaLaneConfig) (now : ℕ) (victim : Option (ℕ ×ₗ OriginQuotaKey))
    (kv : OriginQuotaKey × OriginQuota) :
    Except OriginQuotaArithmeticError (Option (ℕ ×ₗ OriginQuotaKey)) :=
  match kv.2.fullyReplenishedAt c now with
  | .error e => Except.error e
  | .ok false => .ok victim
  | .ok true =>
    let candidate := toLex (kv.2.lastRefill, kv.1)
    .ok (some (victim.elim candidate (min candidate)))

lemma foldlM_victim {c : OriginQuotaLaneConfig} (l : List (OriginQuotaKey × OriginQuota))
    {victim : Option (ℕ ×ₗ OriginQuotaKey)} {v : ℕ ×ₗ OriginQuotaKey}
    (h : l.foldlM (considerVictim c now) victim = .ok (some v)) :
    victim = some v ∨ ∃ kv ∈ l, (ofLex v).2 = kv.1 ∧ kv.2.fullyReplenishedAt c now = .ok true := by
  induction l generalizing victim with
  | nil => exact Or.inl (Except.ok.inj h)
  | cons kv l ih =>
    rw [List.foldlM_cons] at h
    rcases hkv : kv.2.fullyReplenishedAt c now with e | full
    · simp only [considerVictim, hkv] at h
      cases h
    cases full with
    | false =>
      have hstep : considerVictim c now victim kv = .ok victim := by
        simp only [considerVictim, hkv]
      rw [hstep] at h
      rcases ih h with h | ⟨kv', hmem, hv⟩
      · exact Or.inl h
      · exact Or.inr ⟨kv', List.mem_cons_of_mem _ hmem, hv⟩
    | true =>
      have hstep : considerVictim c now victim kv = .ok (some (victim.elim
          (toLex (kv.2.lastRefill, kv.1)) (min (toLex (kv.2.lastRefill, kv.1))))) := by
        simp only [considerVictim, hkv]
      rw [hstep] at h
      rcases ih h with h | ⟨kv', hmem, hv⟩
      · -- the best candidate is this record or the one kept so far
        have h := Option.some.inj h
        cases victim with
        | none => exact Or.inr ⟨kv, List.mem_cons_self, by rw [← h]; rfl, hkv⟩
        | some w =>
          rcases min_choice (toLex (kv.2.lastRefill, kv.1)) w with hm | hm
          · exact Or.inr ⟨kv, List.mem_cons_self, by rw [← h]; exact congrArg (·.2) hm, hkv⟩
          · exact Or.inl (congrArg some (hm.symm.trans h))
      · exact Or.inr ⟨kv', List.mem_cons_of_mem _ hmem, hv⟩

lemma foldlM_victim_timely {c : OriginQuotaLaneConfig} (l : List (OriginQuotaKey × OriginQuota))
    (hl : ∀ kv ∈ l, kv.2.lastRefill ≤ now) (victim : Option (ℕ ×ₗ OriginQuotaKey)) :
    ∃ v, l.foldlM (considerVictim c now) victim = .ok v := by
  induction l generalizing victim with
  | nil => exact ⟨victim, rfl⟩
  | cons kv l ih =>
    rw [List.foldlM_cons]
    have hkv : ∃ full, kv.2.fullyReplenishedAt c now = .ok full := by
      unfold OriginQuota.fullyReplenishedAt
      rw [OriginQuota.refilled_eq (hl kv List.mem_cons_self)]
      exact ⟨_, rfl⟩
    obtain ⟨full, hkv⟩ := hkv
    have hstep : ∃ v, considerVictim c now victim kv = .ok v := by
      cases full <;> exact ⟨_, by simp only [considerVictim, hkv]; rfl⟩
    obtain ⟨v, hstep⟩ := hstep
    rw [hstep]
    exact ih (fun kv h => hl kv (List.mem_cons_of_mem _ h)) v

lemma safeVictim_eq (t : OriginQuotaTable) (lane : MessageCategory) (c : OriginQuotaLaneConfig)
    (now : ℕ) : t.safeVictim lane c now =
      match (t.records.entries.filter fun kv => kv.1.category = lane).foldlM
        (considerVictim c now) none with
      | .error e => .error (.arithmetic e)
      | .ok victim => .ok (victim.map fun v => (ofLex v).2) := rfl

/-- A victim is a fully replenished record of the lane. -/
lemma safeVictim_some {lane : MessageCategory} {c : OriginQuotaLaneConfig}
    {victim : OriginQuotaKey} (h : t.safeVictim lane c now = .ok (some victim)) :
    victim.category = lane ∧ ∃ q, t.records.get? victim = some q ∧
      q.fullyReplenishedAt c now = .ok true := by
  rw [safeVictim_eq] at h
  split at h
  · cases h
  rename_i v hfold
  obtain ⟨w, rfl, hkey⟩ := Option.map_eq_some_iff.mp (Except.ok.inj h)
  rcases foldlM_victim _ hfold with hnone | ⟨kv, hmem, hk, hfull⟩
  · cases hnone
  · obtain ⟨hmem, hlane⟩ := List.mem_filter.mp hmem
    rw [← hkey, hk]
    exact ⟨by simpa using hlane, kv.2, (t.records.mem_entries).mp hmem, hfull⟩

lemma safeVictim_timely (h : t.Timely now) (lane : MessageCategory) (c : OriginQuotaLaneConfig) :
    ∃ victim, t.safeVictim lane c now = .ok victim := by
  obtain ⟨v, hv⟩ := foldlM_victim_timely (c := c)
    (t.records.entries.filter fun kv => kv.1.category = lane)
    (fun kv hkv => h kv.1 kv.2 ((t.records.mem_entries).mp (List.mem_filter.mp hkv).1)) none
  rw [safeVictim_eq, hv]
  exact ⟨_, rfl⟩

/-! ### What one reservation does to the view -/

lemma view_insert (t : OriginQuotaTable) (key k : OriginQuotaKey) (q : OriginQuota) (now : ℕ) :
    OriginQuotaTable.view { t with records := t.records.insert key q } k now =
      if k = key then q.settled (t.config.lane key.category) now else t.view k now := by
  unfold view
  simp only [BTreeMap.get?_insert]
  split
  · rename_i h
    rw [h]
    rfl
  · rfl

/-- A record that reads as full may be dropped. -/
lemma view_remove {victim : OriginQuotaKey} {q : OriginQuota}
    (hq : t.records.get? victim = some q)
    (hfull : q.fullyReplenishedAt (t.config.lane victim.category) now = .ok true)
    (k : OriginQuotaKey) {later : ℕ} (hlater : now ≤ later) :
    OriginQuotaTable.view { t with records := t.records.remove victim } k later =
      t.view k later := by
  obtain ⟨hle, hs⟩ := OriginQuota.settled_of_replenished hfull
  unfold view
  simp only [BTreeMap.get?_remove]
  split
  · rename_i h
    rw [h, hq]
    change OriginQuota.full _ later = q.settled _ later
    rw [← OriginQuota.settled_settled hle hlater, hs, OriginQuota.settled_full]
  · rfl

lemma Timely.insert (h : t.Timely now) {key : OriginQuotaKey} {q : OriginQuota}
    (hq : q.lastRefill ≤ now) :
    Timely { t with records := t.records.insert key q } now := by
  intro k q' hk
  simp only [BTreeMap.get?_insert] at hk
  split at hk
  · rw [← Option.some.inj hk]
    exact hq
  · exact h k q' hk

lemma Timely.remove (h : t.Timely now) (key : OriginQuotaKey) :
    Timely { t with records := t.records.remove key } now := by
  intro k q' hk
  simp only [BTreeMap.get?_remove] at hk
  split at hk
  · cases hk
  · exact h k q' hk

lemma Timely.mono (h : t.Timely now) {later : ℕ} (hle : now ≤ later) : t.Timely later :=
  fun k q hk => (h k q hk).trans hle

/-- `u` follows `t` at `now`, and from then on its keys show what `shows` says. -/
structure Shows (t u : OriginQuotaTable) (now : ℕ)
    (shows : OriginQuotaKey → ℕ → OriginQuota) : Prop where
  config : u.config = t.config
  timely : u.Timely now
  view : ∀ key later, now ≤ later → u.view key later = shows key later

/-- What a call can be answered, by what the table shows of its key. -/
inductive Answered (t : OriginQuotaTable) (call : QuotaCall) :
    Except OriginQuotaAdmissionError OriginQuotaReservation → OriginQuotaTable → Prop
  | refused {e : OriginQuotaAdmissionError} {u : OriginQuotaTable}
      (spent : (t.view call.key call.now).spend call.limit call.byteCost = .error e)
      (shown : Shows t u call.now t.view) : Answered t call (.error e) u
  | full (capacity : ℕ) (timely : t.Timely call.now) :
      Answered t call (.error (.verdict (.capacity capacity))) t
  | admitted {r : OriginQuotaReservation} {next : OriginQuota} {u : OriginQuotaTable}
      (spent : (t.view call.key call.now).spend call.limit call.byteCost = .ok next)
      (shown : Shows t u call.now fun key later =>
        if key = call.key then next.settled (t.config.lane call.key.category) later
        else t.view key later) : Answered t call (.ok r) u

/-- **One reservation.** The answer and the view it leaves are read off the view alone; only a
full lane is refused for another reason. -/
lemma reserveCall_answered (h : t.Timely call.now) :
    Answered t call (t.reserveCall call).1 (t.reserveCall call).2 := by
  have hsame : Shows t t call.now t.view := ⟨rfl, h, fun _ _ _ => rfl⟩
  unfold reserveCall reserve
  simp only
  rcases hrec : t.records.get? call.key with _ | previous
  · -- an absent record reads as a full one
    have hview : t.view call.key call.now =
        .full (t.config.lane call.key.category) call.now := by
      unfold view settledRecord
      rw [hrec]
      rfl
    have hcases := @OriginQuota.tryAdmit_cases (t.config.lane call.key.category)
      (.full (t.config.lane call.key.category) call.now) call.limit call.byteCost call.now
      (le_refl call.now)
    rw [OriginQuota.settled_full, ← hview] at hcases
    rw [← hview]
    rcases hcases with ⟨e, ha, hs⟩ | ⟨verdict, rejection, ha, hr, hs⟩ | ⟨next, ha, hs⟩
    · simp only [ha]
      exact .refused hs hsame
    · simp only [ha, hr]
      exact .refused hs hsame
    · simp only [ha, OriginQuotaVerdict.rejection]
      have hnext : next.lastRefill ≤ call.now := by
        rw [OriginQuota.spend_lastRefill hs, hview]
        exact le_refl _
      split
      · obtain ⟨victim, hv⟩ := safeVictim_timely h call.key.category
          (t.config.lane call.key.category)
        rw [hv]
        cases victim with
        | none => exact .full _ h
        | some victim =>
          obtain ⟨hlane, q, hq, hfull⟩ := safeVictim_some hv
          rw [← hlane] at hfull
          refine .admitted hs ⟨rfl, (h.remove victim).insert hnext, fun k later hk => ?_⟩
          rw [view_insert { t with records := t.records.remove victim }, view_remove hq hfull k hk]
      · exact .admitted hs ⟨rfl, h.insert hnext, fun k later _ => view_insert ..⟩
  · have hview : t.view call.key call.now =
        previous.settled (t.config.lane call.key.category) call.now := by
      unfold view settledRecord
      rw [hrec]
      rfl
    have hcases := @OriginQuota.tryAdmit_cases (t.config.lane call.key.category) previous
      call.limit call.byteCost call.now (h _ _ hrec)
    rw [← hview] at hcases
    rcases hcases with ⟨e, ha, hs⟩ | ⟨verdict, rejection, ha, hr, hs⟩ | ⟨next, ha, hs⟩
    · simp only [ha]
      exact .refused hs hsame
    · simp only [ha, hr]
      refine .refused hs ⟨rfl, h.insert (by rw [hview]; exact le_refl _), fun k later hk => ?_⟩
      rw [view_insert]
      split
      · -- a refused call leaves the refill in the record
        rename_i he
        rw [he, hview, OriginQuota.settled_settled (h _ _ hrec) hk]
        unfold view settledRecord
        rw [hrec]
        rfl
      · rfl
    · simp only [ha, OriginQuotaVerdict.rejection]
      have hnext : next.lastRefill ≤ call.now := by
        rw [OriginQuota.spend_lastRefill hs, hview]
        exact le_refl _
      exact .admitted hs ⟨rfl, h.insert hnext, fun k later _ => view_insert ..⟩

end OriginQuotaTable

/-! ### A table that never evicts -/

structure UnboundedQuotaTable where
  config : OriginQuotaConfig
  records : OriginQuotaKey → Option OriginQuota

namespace UnboundedQuotaTable

def new (config : OriginQuotaConfig) : UnboundedQuotaTable := ⟨config, fun _ => none⟩

def put (t : UnboundedQuotaTable) (key : OriginQuotaKey) (q : OriginQuota) : UnboundedQuotaTable :=
  { t with records := Function.update t.records key (some q) }

/-- Charges the record of the key, made full at its first call. -/
def reserveCall (t : UnboundedQuotaTable) (call : QuotaCall) :
    Except OriginQuotaAdmissionError Unit × UnboundedQuotaTable :=
  let c := t.config.lane call.key.category
  let record := (t.records call.key).getD (.full c call.now)
  match record.tryAdmit c call.limit call.byteCost call.now with
  | .error e => (.error (.arithmetic e), t)
  | .ok (next, verdict) =>
    (match verdict.rejection with
      | some rejection => .error (.verdict rejection)
      | none => .ok (), t.put call.key next)

def view (t : UnboundedQuotaTable) (key : OriginQuotaKey) (now : ℕ) : OriginQuota :=
  settledRecord (t.config.lane key.category) (t.records key) now

def Timely (t : UnboundedQuotaTable) (now : ℕ) : Prop :=
  ∀ key q, t.records key = some q → q.lastRefill ≤ now

variable {t : UnboundedQuotaTable} {call : QuotaCall} {now : ℕ}

lemma view_put (t : UnboundedQuotaTable) (key k : OriginQuotaKey) (q : OriginQuota) (now : ℕ) :
    (t.put key q).view k now =
      if k = key then q.settled (t.config.lane key.category) now else t.view k now := by
  unfold view put
  by_cases h : k = key
  · subst h
    simp only [Function.update_self, if_true]
    rfl
  · simp only [Function.update_of_ne h, if_neg h]

lemma Timely.put (h : t.Timely now) {q : OriginQuota} (hq : q.lastRefill ≤ now)
    (key : OriginQuotaKey) : (t.put key q).Timely now := by
  intro k q' hk
  unfold UnboundedQuotaTable.put at hk
  by_cases hkey : k = key
  · subst hkey
    simp only [Function.update_self, Option.some.injEq] at hk
    rw [← hk]
    exact hq
  · simp only [Function.update_of_ne hkey] at hk
    exact h k q' hk

lemma Timely.mono (h : t.Timely now) {later : ℕ} (hle : now ≤ later) : t.Timely later :=
  fun k q hk => (h k q hk).trans hle

/-- A key shows later what its present view refills to. -/
lemma view_settled (h : t.Timely now) (key : OriginQuotaKey) {later : ℕ} (hle : now ≤ later) :
    (t.view key now).settled (t.config.lane key.category) later = t.view key later := by
  unfold view settledRecord
  rcases hrec : t.records key with _ | q
  · exact OriginQuota.settled_full
  · exact OriginQuota.settled_settled (h _ _ hrec) hle

lemma reserveCall_cases (h : t.Timely call.now) :
    let s := t.view call.key call.now
    (∃ e, s.spend call.limit call.byteCost = .error (.arithmetic e) ∧
      t.reserveCall call = (.error (.arithmetic e), t)) ∨
    (∃ rejection, s.spend call.limit call.byteCost = .error (.verdict rejection) ∧
      t.reserveCall call = (.error (.verdict rejection), t.put call.key s)) ∨
    ∃ next, s.spend call.limit call.byteCost = .ok next ∧
      t.reserveCall call = (.ok (), t.put call.key next) := by
  intro s
  obtain ⟨q, hq, hle, hview⟩ : ∃ q,
      (t.records call.key).getD (.full (t.config.lane call.key.category) call.now) = q ∧
      q.lastRefill ≤ call.now ∧ s = q.settled (t.config.lane call.key.category) call.now := by
    simp only [s, view, settledRecord]
    rcases hrec : t.records call.key with _ | q
    · exact ⟨_, rfl, le_refl _, OriginQuota.settled_full.symm⟩
    · exact ⟨q, rfl, h _ _ hrec, rfl⟩
  have hcases := @OriginQuota.tryAdmit_cases (t.config.lane call.key.category) q call.limit
    call.byteCost call.now hle
  rw [← hview] at hcases
  unfold reserveCall
  simp only [hq]
  rcases hcases with ⟨e, ha, hs⟩ | ⟨verdict, rejection, ha, hr, hs⟩ | ⟨next, ha, hs⟩
  · exact Or.inl ⟨e, hs, by rw [ha]⟩
  · exact Or.inr (Or.inl ⟨rejection, hs, by rw [ha]; simp only [hr]⟩)
  · exact Or.inr (Or.inr ⟨next, hs, by rw [ha]; rfl⟩)

lemma reserveCall_view (h : t.Timely call.now) :
    let s := (t.view call.key call.now).spend call.limit call.byteCost
    let u := (t.reserveCall call).2
    (t.reserveCall call).1 = s.map (fun _ => ()) ∧ u.config = t.config ∧ u.Timely call.now ∧
      ∀ key later, call.now ≤ later → u.view key later =
        if key = call.key then
          (s.toOption.getD (t.view key call.now)).settled (t.config.lane call.key.category) later
        else t.view key later := by
  have hlast : (t.view call.key call.now).lastRefill = call.now := by
    unfold view settledRecord
    cases t.records call.key <;> rfl
  rcases reserveCall_cases h with ⟨e, hs, hres⟩ | ⟨rejection, hs, hres⟩ | ⟨next, hs, hres⟩ <;>
    simp only [hs, hres]
  · refine ⟨rfl, trivial, h, fun key later hk => ?_⟩
    split
    · rename_i hkey
      subst hkey
      exact (view_settled h call.key hk).symm
    · rfl
  · refine ⟨rfl, rfl, h.put hlast.le call.key, fun key later hk => ?_⟩
    rw [view_put]
    split
    · rename_i hkey
      rw [hkey]
      rfl
    · rfl
  · refine ⟨rfl, rfl, h.put ?_ call.key, fun key later hk => view_put ..⟩
    rw [OriginQuota.spend_lastRefill hs]
    exact hlast.le

end UnboundedQuotaTable

end Rings
