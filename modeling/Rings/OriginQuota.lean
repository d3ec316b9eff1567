import Rings.BTreeMap
import Rings.ReplayWindow

/-!
Origin quotas of final-destination transactions.

Each origin, destination and lane owns a message bucket and a byte bucket that refill with
monotonic time. A reservation charges both, or neither: a refused one keeps only the refill.
Rolling a reservation back puts the table as it was before it, whatever refilled since.
-/

namespace Rings

def nanosPerSecond : ℕ := 1000000000

/-- Minimum byte charge of a delegated admission. -/
def delegatedMinCharge : ℕ := 16 * 1024

/-- Whether the message limit of a lane is enforced or left to the admitting namespace. -/
inductive MessageLimit where
  | enforced
  | delegated
deriving DecidableEq

/-- Token-bucket and table limits of one lane. -/
structure OriginQuotaLaneConfig where
  messageRatePerSecond : ℕ
  messageBurst : ℕ
  byteRatePerSecond : ℕ
  byteBurst : ℕ
  maxRecords : ℕ
  positive : 0 < messageRatePerSecond ∧ 0 < messageBurst ∧ 0 < byteRatePerSecond ∧
    0 < byteBurst ∧ 0 < maxRecords
  fits : messageBurst ≤ u64Max ∧ byteBurst ≤ u64Max

/-- The default limits of a lane. -/
def OriginQuotaLaneConfig.default : OriginQuotaLaneConfig :=
  ⟨8, 32, 4 * 1024 * 1024, 64 * 1024 * 1024, 1024, by decide, by decide⟩

/-- Per-lane quota configuration. -/
structure OriginQuotaConfig where
  dhtControl : OriginQuotaLaneConfig
  storage : OriginQuotaLaneConfig
  e2e : OriginQuotaLaneConfig
  application : OriginQuotaLaneConfig

namespace OriginQuotaConfig

def lane (c : OriginQuotaConfig) : MessageCategory → OriginQuotaLaneConfig
  | .dhtControl => c.dhtControl
  | .storage => c.storage
  | .e2e => c.e2e
  | .application => c.application

def default : OriginQuotaConfig := ⟨.default, .default, .default, .default⟩

end OriginQuotaConfig

/-- A quota record is named as a stream is, by the lane in place of the class. -/
abbrev OriginQuotaKey := StreamKey

/-- A bucket of tokens in billionths. -/
structure TokenBucket where
  scaledTokens : ℕ
deriving DecidableEq

namespace TokenBucket

def full (burst : ℕ) : TokenBucket := ⟨burst * nanosPerSecond⟩

def refill (b : TokenBucket) (rate burst elapsedNanos : ℕ) : TokenBucket :=
  let capacity := burst * nanosPerSecond
  let replenished := min (elapsedNanos * rate) u128Max
  ⟨min (saturatingAdd u128Max b.scaledTokens replenished) capacity⟩

def has (b : TokenBucket) (scaledCost : ℕ) : Bool := decide (scaledCost ≤ b.scaledTokens)

def consume (b : TokenBucket) (scaledCost : ℕ) : TokenBucket := ⟨b.scaledTokens - scaledCost⟩

def isFull (b : TokenBucket) (burst : ℕ) : Bool :=
  decide (b.scaledTokens = burst * nanosPerSecond)

lemma refill_eq (b : TokenBucket) (rate : ℕ) {burst : ℕ} (h : burst ≤ u64Max) (elapsed : ℕ) :
    b.refill rate burst elapsed =
      ⟨min (b.scaledTokens + elapsed * rate) (burst * nanosPerSecond)⟩ := by
  have hcap : burst * nanosPerSecond ≤ u128Max :=
    (Nat.mul_le_mul_right _ h).trans (by decide)
  simp only [refill, saturatingAdd]
  congr 1
  omega

/-- Refilling twice is refilling once over the whole time. -/
lemma refill_refill (b : TokenBucket) (rate : ℕ) {burst : ℕ} (h : burst ≤ u64Max) (e e' : ℕ) :
    (b.refill rate burst e).refill rate burst e' = b.refill rate burst (e + e') := by
  rw [refill_eq _ _ h, refill_eq _ _ h, refill_eq _ _ h, Nat.add_mul]
  congr 1
  simp only
  omega

end TokenBucket

inductive OriginQuotaArithmeticError where
  | monotonicTimeRegressed
  | byteCostOverflow
deriving DecidableEq

inductive OriginQuotaVerdict where
  | admitted
  | messageRateExhausted
  | byteRateExhausted
deriving DecidableEq

inductive OriginQuotaRejection where
  | messageRate
  | byteRate
  | capacity (capacity : ℕ)
deriving DecidableEq

inductive OriginQuotaAdmissionError where
  | verdict (rejection : OriginQuotaRejection)
  | arithmetic (error : OriginQuotaArithmeticError)
deriving DecidableEq

def OriginQuotaVerdict.rejection : OriginQuotaVerdict → Option OriginQuotaRejection
  | admitted => none
  | messageRateExhausted => some .messageRate
  | byteRateExhausted => some .byteRate

/-- The buckets of one quota record, and the instant they were last refilled. -/
@[ext]
structure OriginQuota where
  messages : TokenBucket
  bytes : TokenBucket
  lastRefill : ℕ
deriving DecidableEq

def scaledMessageCost : MessageLimit → ℕ
  | .enforced => nanosPerSecond
  | .delegated => 0

def chargedBytes (limit : MessageLimit) (byteCost : ℕ) : ℕ :=
  match limit with
  | .enforced => byteCost
  | .delegated => max byteCost delegatedMinCharge

namespace OriginQuota

def full (c : OriginQuotaLaneConfig) (now : ℕ) : OriginQuota :=
  ⟨.full c.messageBurst, .full c.byteBurst, now⟩

def refilled (q : OriginQuota) (c : OriginQuotaLaneConfig) (now : ℕ) :
    Except OriginQuotaArithmeticError OriginQuota :=
  if now < q.lastRefill then .error .monotonicTimeRegressed
  else
    let elapsed := now - q.lastRefill
    .ok ⟨q.messages.refill c.messageRatePerSecond c.messageBurst elapsed,
      q.bytes.refill c.byteRatePerSecond c.byteBurst elapsed, now⟩

/-- One admission: a rejected one retains the refill and consumes neither bucket. -/
def tryAdmit (q : OriginQuota) (c : OriginQuotaLaneConfig) (limit : MessageLimit)
    (byteCost now : ℕ) : Except OriginQuotaArithmeticError (OriginQuota × OriginQuotaVerdict) :=
  match q.refilled c now with
  | .error e => .error e
  | .ok next =>
    let messageCost := scaledMessageCost limit
    if !next.messages.has messageCost then .ok (next, .messageRateExhausted)
    else
      let scaledByteCost := chargedBytes limit byteCost * nanosPerSecond
      if u128Max < scaledByteCost then .error .byteCostOverflow
      else if !next.bytes.has scaledByteCost then .ok (next, .byteRateExhausted)
      else .ok ({ next with
        messages := next.messages.consume messageCost
        bytes := next.bytes.consume scaledByteCost }, .admitted)

def fullyReplenishedAt (q : OriginQuota) (c : OriginQuotaLaneConfig) (now : ℕ) :
    Except OriginQuotaArithmeticError Bool :=
  match q.refilled c now with
  | .error e => .error e
  | .ok r => .ok (r.messages.isFull c.messageBurst && r.bytes.isFull c.byteBurst)

end OriginQuota

/-- The inverse of one reservation. -/
structure OriginQuotaReservation where
  key : OriginQuotaKey
  previous : Option OriginQuota
  evicted : Option (OriginQuotaKey × OriginQuota)

@[ext]
structure OriginQuotaTable where
  config : OriginQuotaConfig
  records : BTreeMap OriginQuotaKey OriginQuota

def OriginQuotaReservation.rollback (r : OriginQuotaReservation) (t : OriginQuotaTable) :
    OriginQuotaTable :=
  let records := match r.previous with
    | some previous => t.records.insert r.key previous
    | none => t.records.remove r.key
  { t with
    records := match r.evicted with
      | some (key, quota) => records.insert key quota
      | none => records }

namespace OriginQuotaTable

def new (config : OriginQuotaConfig) : OriginQuotaTable := ⟨config, .empty⟩

/-- The oldest fully replenished record of a lane, by last refill and key. -/
def safeVictim (t : OriginQuotaTable) (lane : MessageCategory) (c : OriginQuotaLaneConfig)
    (now : ℕ) : Except OriginQuotaAdmissionError (Option OriginQuotaKey) :=
  let candidates := t.records.entries.filter fun kv => kv.1.category = lane
  let victim := candidates.foldlM (fun (victim : Option (ℕ ×ₗ OriginQuotaKey)) kv =>
    match kv.2.fullyReplenishedAt c now with
    | .error e => Except.error e
    | .ok false => .ok victim
    | .ok true =>
      let candidate := toLex (kv.2.lastRefill, kv.1)
      .ok (some (victim.elim candidate (min candidate)))) none
  match victim with
  | .error e => .error (.arithmetic e)
  | .ok victim => .ok (victim.map fun v => (ofLex v).2)

/-- Charges one message of `byteCost` to `key`, with the table it leaves. -/
def reserve (t : OriginQuotaTable) (key : OriginQuotaKey) (limit : MessageLimit)
    (byteCost now : ℕ) :
    Except OriginQuotaAdmissionError OriginQuotaReservation × OriginQuotaTable :=
  let c := t.config.lane key.category
  match t.records.get? key with
  | some previous =>
    match previous.tryAdmit c limit byteCost now with
    | .error e => (.error (.arithmetic e), t)
    | .ok (next, verdict) =>
      let t' := { t with records := t.records.insert key next }
      match verdict.rejection with
      | some rejection => (.error (.verdict rejection), t')
      | none => (.ok ⟨key, some previous, none⟩, t')
  | none =>
    match (OriginQuota.full c now).tryAdmit c limit byteCost now with
    | .error e => (.error (.arithmetic e), t)
    | .ok (next, verdict) =>
      match verdict.rejection with
      | some rejection => (.error (.verdict rejection), t)
      | none =>
        let laneRecords := (t.records.entries.filter fun kv => kv.1.category = key.category).length
        if laneRecords ≥ c.maxRecords then
          match t.safeVictim key.category c now with
          | .error e => (.error e, t)
          | .ok none => (.error (.verdict (.capacity c.maxRecords)), t)
          | .ok (some victim) =>
            (.ok ⟨key, none, (t.records.get? victim).map (victim, ·)⟩,
              { t with records := (t.records.remove victim).insert key next })
        else (.ok ⟨key, none, none⟩, { t with records := t.records.insert key next })

end OriginQuotaTable

/-! ### Records up to refill -/

/-- A record as it is, or refilled at some instant. -/
def OriginQuota.Refilled (c : OriginQuotaLaneConfig) (q q' : OriginQuota) : Prop :=
  q' = q ∨ ∃ now, q.refilled c now = .ok q'

lemma OriginQuota.refilled_refilled {c : OriginQuotaLaneConfig} {p q r : OriginQuota} {t u : ℕ}
    (h : p.refilled c t = .ok q) (h' : q.refilled c u = .ok r) : p.refilled c u = .ok r := by
  simp only [OriginQuota.refilled] at h h' ⊢
  split at h
  · cases h
  split at h'
  · cases h'
  rename_i ht hu
  cases h
  simp only at hu h'
  rw [if_neg (by omega), ← h', TokenBucket.refill_refill _ _ c.fits.1,
    TokenBucket.refill_refill _ _ c.fits.2]
  have : t - p.lastRefill + (u - t) = u - p.lastRefill := by omega
  rw [this]

lemma OriginQuota.Refilled.trans {c : OriginQuotaLaneConfig} {p q r : OriginQuota}
    (h : p.Refilled c q) (h' : q.Refilled c r) : p.Refilled c r := by
  rcases h with rfl | ⟨t, ht⟩
  · exact h'
  rcases h' with rfl | ⟨u, hu⟩
  · exact Or.inr ⟨t, ht⟩
  · exact Or.inr ⟨u, OriginQuota.refilled_refilled ht hu⟩

lemma OriginQuota.admit_rejected {c : OriginQuotaLaneConfig} {q next : OriginQuota}
    {limit : MessageLimit} {byteCost now : ℕ} {verdict : OriginQuotaVerdict}
    {rejection : OriginQuotaRejection} (h : q.tryAdmit c limit byteCost now = .ok (next, verdict))
    (hr : verdict.rejection = some rejection) : q.Refilled c next := by
  rw [tryAdmit] at h
  split at h
  · cases h
  rename_i r hrefill
  simp only at h
  split at h
  · cases h
    exact Or.inr ⟨now, hrefill⟩
  split at h
  · cases h
  split at h
  · cases h
    exact Or.inr ⟨now, hrefill⟩
  · cases h
    cases hr

namespace OriginQuotaTable

variable {t u v : OriginQuotaTable} {key : OriginQuotaKey} {limit : MessageLimit}
  {byteCost now : ℕ}

/-- The same records, each as it was or refilled. -/
structure Refilled (t u : OriginQuotaTable) : Prop where
  config : u.config = t.config
  none : ∀ key, t.records.get? key = none → u.records.get? key = none
  some : ∀ key q, t.records.get? key = some q → ∃ q', u.records.get? key = some q' ∧
    q.Refilled (t.config.lane key.category) q'

lemma Refilled.refl (t : OriginQuotaTable) : t.Refilled t :=
  ⟨rfl, fun _ h => h, fun _ q h => ⟨q, h, Or.inl rfl⟩⟩

lemma Refilled.trans (h : t.Refilled u) (h' : u.Refilled v) : t.Refilled v where
  config := h'.config.trans h.config
  none := fun key hk => h'.none key (h.none key hk)
  some := by
    intro key q hq
    obtain ⟨q', hq', hr⟩ := h.some key q hq
    obtain ⟨q'', hq'', hr'⟩ := h'.some key q' hq'
    rw [h.config] at hr'
    exact ⟨q'', hq'', hr.trans hr'⟩

/-- A record written over both tables leaves them the same up to refill. -/
lemma Refilled.insert (h : t.Refilled u) (key : OriginQuotaKey) (q : OriginQuota) :
    Refilled { t with records := t.records.insert key q }
      { u with records := u.records.insert key q } where
  config := h.config
  none := by
    intro k hk
    simp only [BTreeMap.get?_insert] at hk ⊢
    split at hk
    · cases hk
    · rename_i hne
      rw [if_neg hne]
      exact h.none k hk
  some := by
    intro k q' hk
    simp only [BTreeMap.get?_insert] at hk ⊢
    split at hk
    · rename_i heq
      rw [if_pos heq]
      exact ⟨q, rfl, Or.inl (Option.some.inj hk)⟩
    · rename_i hne
      rw [if_neg hne]
      exact h.some k q' hk

lemma Refilled.remove (h : t.Refilled u) (key : OriginQuotaKey) :
    Refilled { t with records := t.records.remove key }
      { u with records := u.records.remove key } where
  config := h.config
  none := by
    intro k hk
    simp only [BTreeMap.get?_remove] at hk ⊢
    split at hk
    · rename_i heq
      rw [if_pos heq]
    · rename_i hne
      rw [if_neg hne]
      exact h.none k hk
  some := by
    intro k q hk
    simp only [BTreeMap.get?_remove] at hk ⊢
    split at hk
    · cases hk
    · rename_i hne
      rw [if_neg hne]
      exact h.some k q hk

lemma Refilled.rollback (h : t.Refilled u) (r : OriginQuotaReservation) :
    (r.rollback t).Refilled (r.rollback u) := by
  obtain ⟨key, _ | previous, _ | ⟨victim, quota⟩⟩ := r
  · exact h.remove key
  · exact (h.remove key).insert victim quota
  · exact h.insert key previous
  · exact (h.insert key previous).insert victim quota

/-- A refused reservation refills at most one record. -/
lemma refilled_of_reserve_error {e : OriginQuotaAdmissionError}
    (h : t.reserve key limit byteCost now = (.error e, u)) : t.Refilled u := by
  rw [reserve] at h
  split at h
  · rename_i previous hprevious
    split at h
    · cases h
      exact .refl t
    · rename_i next verdict hadmitted
      simp only at h
      split at h
      · rename_i rejection hrejection
        cases h
        refine ⟨rfl, fun k hk => ?_, fun k q hk => ?_⟩
        · simp only [BTreeMap.get?_insert]
          rw [if_neg, hk]
          rintro rfl
          simp [hprevious] at hk
        · simp only [BTreeMap.get?_insert]
          split
          · rename_i heq
            subst heq
            obtain rfl := Option.some.inj (hprevious.symm.trans hk)
            exact ⟨next, rfl, OriginQuota.admit_rejected hadmitted hrejection⟩
          · exact ⟨q, hk, Or.inl rfl⟩
      · cases h
  · split at h
    · cases h
      exact .refl t
    · split at h
      · cases h
        exact .refl t
      · simp only at h
        split at h
        · split at h
          · cases h
            exact .refl t
          · cases h
            exact .refl t
          · cases h
        · cases h

/-- Rolling a reservation back leaves the table as it was before it. -/
lemma rollback_reserve {r : OriginQuotaReservation}
    (h : t.reserve key limit byteCost now = (.ok r, u)) : r.rollback u = t := by
  have hback : ∀ (previous : Option OriginQuota) (next : OriginQuota),
      t.records.get? key = previous →
      OriginQuotaReservation.rollback ⟨key, previous, none⟩
        { t with records := t.records.insert key next } = t := by
    intro previous next hprevious
    refine OriginQuotaTable.ext rfl (BTreeMap.ext_get? fun k => ?_)
    cases previous <;>
      simp only [OriginQuotaReservation.rollback, BTreeMap.get?_insert, BTreeMap.get?_remove] <;>
      split <;> simp_all
  rw [reserve] at h
  split at h
  · rename_i previous hprevious
    split at h
    · cases h
    · simp only at h
      split at h
      · cases h
      · cases h
        exact hback _ _ hprevious
  · rename_i hnone
    split at h
    · cases h
    · split at h
      · cases h
      · simp only at h
        split at h
        · split at h
          · cases h
          · cases h
          · rename_i victim _
            cases h
            refine OriginQuotaTable.ext rfl (BTreeMap.ext_get? fun k => ?_)
            rcases hv : t.records.get? victim with _ | quota <;>
              simp only [OriginQuotaReservation.rollback, Option.map_none, Option.map_some,
                BTreeMap.get?_insert, BTreeMap.get?_remove] <;>
              repeat' split
            all_goals simp_all
        · cases h
          exact hback _ _ hnone

end OriginQuotaTable

end Rings
