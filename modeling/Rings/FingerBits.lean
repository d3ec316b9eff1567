import Rings.StabilizeTokens
import Rings.TopologyShape

/-!
Verification bits of finger slots.

A bit is set by a proof whose lookup was issued no earlier than the slot's last hint change, or
by a range confirmed with the hint it names. Every change of the hints while a lookup is in flight
raises the epoch of the slots it touches, or retires the lookup, so a proof writes only slots whose
hint has stood since its lookup was issued.
-/

namespace Rings

def FingerEvidence.bit (e : FingerEvidence) (i : ℕ) : Bool := e.slots[i]?.elim false (·.verified)

def FingerAttempt.lookup : FingerAttempt → Option (FingerFixRequest × ℕ)
  | .idle => none
  | .awaitingReport p => some (p.request, p.issuedEpoch)
  | .awaitingAdmission a => some (a.proof.request, a.proof.issuedEpoch)

lemma FingerAttempt.lookup_map (a : FingerAttempt) : a.lookup.map Prod.fst = a.request := by
  cases a <;> rfl

/-- No slot changed after the epoch of the evidence. -/
def FingerEvidence.Bounded (e : FingerEvidence) : Prop :=
  ∀ (i : ℕ) (sl : FingerSlotEvidence), e.slots[i]? = some sl → sl.changedAt ≤ e.epoch

structure Versioned (f : Fingers) (e : FingerEvidence) (f' : Fingers) (e' : FingerEvidence) :
    Prop where
  epoch : e.epoch ≤ e'.epoch
  slots : ∀ (i : ℕ) (sl' : FingerSlotEvidence), e'.slots[i]? = some sl' →
    ∃ sl : FingerSlotEvidence, e.slots[i]? = some sl ∧ sl.changedAt ≤ sl'.changedAt ∧
      (f'[i]? ≠ f[i]? → e.epoch < sl'.changedAt)

/-- The same slots but for their bits. -/
def SameVersions (e e' : FingerEvidence) : Prop :=
  e'.epoch = e.epoch ∧ ∀ i : ℕ, (e'.slots[i]?).map FingerSlotEvidence.changedAt =
    (e.slots[i]?).map FingerSlotEvidence.changedAt

section Slots

variable {e e' e'' : FingerEvidence} {f f' : Fingers} {i : ℕ}

lemma bit_eq_true : e.bit i = true ↔ ∃ sl, e.slots[i]? = some sl ∧ sl.verified = true := by
  rw [FingerEvidence.bit]
  cases e.slots[i]? <;> simp

lemma sameVersions_rfl : SameVersions e e := ⟨rfl, fun _ => rfl⟩

lemma sameVersions_mapIdx (e : FingerEvidence) (g : ℕ → FingerSlotEvidence → FingerSlotEvidence)
    (hg : ∀ i s, (g i s).changedAt = s.changedAt) :
    SameVersions e { e with slots := e.slots.mapIdx g } := by
  refine ⟨rfl, fun i => ?_⟩
  simp only [List.getElem?_mapIdx, Option.map_map]
  cases e.slots[i]? with
  | none => rfl
  | some s => exact congrArg some (hg i s)

lemma SameVersions.bounded (h : SameVersions e e') (hb : e.Bounded) : e'.Bounded := by
  intro i sl hsl
  have hi := h.2 i
  rw [hsl, Option.map_some] at hi
  obtain ⟨sl', hsl', heq⟩ := Option.map_eq_some_iff.1 hi.symm
  rw [h.1, ← heq]
  exact hb i sl' hsl'

lemma SameVersions.versioned (h : SameVersions e e') (f : Fingers) : Versioned f e f e' := by
  refine ⟨h.1.ge, fun i sl' hsl' => ?_⟩
  have hi := h.2 i
  rw [hsl', Option.map_some] at hi
  obtain ⟨sl, hsl, heq⟩ := Option.map_eq_some_iff.1 hi.symm
  exact ⟨sl, hsl, heq.le, fun hne => absurd rfl hne⟩

lemma Versioned.trans {f'' : Fingers} (h : Versioned f e f' e') (h' : Versioned f' e' f'' e'') :
    Versioned f e f'' e'' := by
  refine ⟨h.epoch.trans h'.epoch, fun i sl'' hsl'' => ?_⟩
  obtain ⟨sl', hsl', hle', hchange'⟩ := h'.slots i sl'' hsl''
  obtain ⟨sl, hsl, hle, hchange⟩ := h.slots i sl' hsl'
  refine ⟨sl, hsl, hle.trans hle', fun hne => ?_⟩
  by_cases hsame : f''[i]? = f'[i]?
  · exact (hchange (hsame ▸ hne)).trans_le hle'
  · exact h.epoch.trans_lt (hchange' hsame)

end Slots

/-! ### The transitions of the evidence -/

namespace FingerEvidence

variable (e : FingerEvidence) (f f' : Fingers)

/-- What a change of the hints leaves of the evidence. -/
lemma invalidateHintChanges_spec (hb : e.Bounded) :
    (∀ i : ℕ, (e.invalidateHintChanges f f').1.bit i = true →
      e.bit i = true ∧ f'[i]? = f[i]?) ∧
      ((e.invalidateHintChanges f f').2 = .epochExhausted ∨
        Versioned f e f' (e.invalidateHintChanges f f').1) ∧
      (e.invalidateHintChanges f f').1.Bounded := by
  rw [invalidateHintChanges]
  split
  · rename_i hnone
    have hsame : ∀ (i : ℕ) (sl : FingerSlotEvidence), e.slots[i]? = some sl → f'[i]? = f[i]? := by
      intro i sl hsl
      by_contra hne
      refine hnone (List.any_eq_true.2 ⟨i, ?_, ?_⟩)
      · exact List.mem_range.2 (List.getElem?_eq_some_iff.1 hsl).1
      · rw [hintChangedAt, decide_eq_true_eq]
        exact fun heq => hne heq.symm
    refine ⟨fun i hi => ?_, Or.inr ⟨le_rfl, fun i sl hsl => ?_⟩, hb⟩
    · obtain ⟨sl, hsl, -⟩ := bit_eq_true.1 hi
      exact ⟨hi, hsame i sl hsl⟩
    · exact ⟨sl, hsl, le_rfl, fun hne => absurd (hsame i sl hsl) hne⟩
  · rcases hnext : checkedAdd u64Max e.epoch 1 with _ | next
    · refine ⟨fun i hi => ?_, Or.inl rfl, fun i sl hsl => ?_⟩
      · obtain ⟨sl, hsl, hv⟩ := bit_eq_true.1 hi
        rw [List.getElem?_map] at hsl
        obtain ⟨sl', -, rfl⟩ := Option.map_eq_some_iff.1 hsl
        cases hv
      · rw [List.getElem?_map] at hsl
        obtain ⟨sl', hsl', rfl⟩ := Option.map_eq_some_iff.1 hsl
        exact hb i sl' hsl'
    · have hepoch : next = e.epoch + 1 := by
        rw [checkedAdd] at hnext
        split at hnext
        · exact (Option.some.inj hnext).symm
        · cases hnext
      have hslot : ∀ (i : ℕ) (sl' : FingerSlotEvidence), (e.slots.mapIdx fun i s =>
          if hintChangedAt f f' i then FingerSlotEvidence.unverified next else s)[i]? = some sl' →
          ∃ sl, e.slots[i]? = some sl ∧
            (sl' = .unverified next ∨ f'[i]? = f[i]? ∧ sl' = sl) := by
        intro i sl' hsl'
        rw [List.getElem?_mapIdx] at hsl'
        obtain ⟨sl, hsl, rfl⟩ := Option.map_eq_some_iff.1 hsl'
        refine ⟨sl, hsl, ?_⟩
        by_cases hchanged : f[i]? = f'[i]?
        · rw [if_neg (by simp [hintChangedAt, hchanged])]
          exact Or.inr ⟨hchanged.symm, rfl⟩
        · rw [if_pos (by simp [hintChangedAt, hchanged])]
          exact Or.inl rfl
      refine ⟨fun i hi => ?_, Or.inr ⟨hepoch ▸ Nat.le_succ _, fun i sl' hsl' => ?_⟩,
        fun i sl' hsl' => ?_⟩
      · obtain ⟨sl', hsl', hv⟩ := bit_eq_true.1 hi
        obtain ⟨sl, hsl, rfl | ⟨hsame, rfl⟩⟩ := hslot i sl' hsl'
        · cases hv
        · exact ⟨bit_eq_true.2 ⟨_, hsl, hv⟩, hsame⟩
      · obtain ⟨sl, hsl, rfl | ⟨hsame, rfl⟩⟩ := hslot i sl' hsl'
        · refine ⟨sl, hsl, ?_, fun _ => hepoch ▸ Nat.lt_succ_self _⟩
          exact hepoch ▸ (hb i sl hsl).trans (Nat.le_succ _)
        · exact ⟨_, hsl, le_rfl, fun hne => absurd hsame hne⟩
      · obtain ⟨sl, hsl, rfl | ⟨-, rfl⟩⟩ := hslot i sl' hsl'
        · exact le_rfl
        · exact (hb i _ hsl).trans (hepoch ▸ Nat.le_succ _)

lemma invalidateAll_bit (i : ℕ) : e.invalidateAll.bit i = false := by
  rw [invalidateAll]
  rcases checkedAdd u64Max e.epoch 1 with _ | next
  · rw [bit, List.getElem?_map]
    cases e.slots[i]? <;> rfl
  · rw [bit, List.getElem?_map]
    cases e.slots[i]? <;> rfl

lemma invalidateAll_bounded (hb : e.Bounded) : e.invalidateAll.Bounded := by
  rw [invalidateAll]
  rcases checkedAdd u64Max e.epoch 1 with _ | next
  · intro i sl hsl
    rw [List.getElem?_map] at hsl
    obtain ⟨sl', hsl', rfl⟩ := Option.map_eq_some_iff.1 hsl
    exact hb i sl' hsl'
  · intro i sl hsl
    rw [List.getElem?_map] at hsl
    obtain ⟨sl', -, rfl⟩ := Option.map_eq_some_iff.1 hsl
    exact le_rfl

lemma reopenNextRange_spec (cursor : ℕ) : SameVersions e (e.reopenNextRange f cursor) ∧
    ∀ i, (e.reopenNextRange f cursor).bit i = true → e.bit i = true := by
  rw [reopenNextRange]
  split
  · exact ⟨sameVersions_rfl, fun _ => id⟩
  · refine ⟨sameVersions_mapIdx e _ fun i s => ?_, fun i hi => ?_⟩
    · split <;> rfl
    · obtain ⟨sl', hsl', hv⟩ := bit_eq_true.1 hi
      rw [List.getElem?_mapIdx] at hsl'
      obtain ⟨sl, hsl, rfl⟩ := Option.map_eq_some_iff.1 hsl'
      split at hv
      · cases hv
      · exact bit_eq_true.2 ⟨sl, hsl, hv⟩

lemma confirmRange_spec (start stop : ℕ) : SameVersions e (e.confirmRange start stop).1 ∧
    ∀ i, (e.confirmRange start stop).1.bit i = true →
      e.bit i = true ∨ start ≤ i ∧ i ≤ stop ∧ i < e.slots.length := by
  rw [confirmRange]
  split
  · exact ⟨sameVersions_rfl, fun _ hi => Or.inl hi⟩
  · refine ⟨sameVersions_mapIdx e _ fun i s => ?_, fun i hi => ?_⟩
    · split <;> rfl
    · obtain ⟨sl', hsl', hv⟩ := bit_eq_true.1 hi
      rw [List.getElem?_mapIdx] at hsl'
      obtain ⟨sl, hsl, rfl⟩ := Option.map_eq_some_iff.1 hsl'
      have hlt := (List.getElem?_eq_some_iff.1 hsl).1
      split at hv
      · right
        omega
      · exact Or.inl (bit_eq_true.2 ⟨sl, hsl, hv⟩)

/-- What a proof sets: the bits it writes, with the hint it names. -/
lemma apply_spec (loc : Did) (p : FingerRangeProof) : SameVersions e (e.apply f loc p).2 ∧
    ∀ i, (e.apply f loc p).2.bit i = true →
      e.bit i = true ∧ (e.apply f loc p).1[i]? = f[i]? ∨
        e.writes p i = true ∧
          (e.apply f loc p).1[i]? = some (if p.successor = loc then none else some p.successor) := by
  refine ⟨sameVersions_mapIdx e _ fun i s => ?_, fun i hi => ?_⟩
  · split <;> rfl
  · obtain ⟨sl', hsl', hv⟩ := bit_eq_true.1 hi
    rw [apply_getElem?]
    simp only [apply, List.getElem?_mapIdx] at hsl'
    obtain ⟨sl, hsl, rfl⟩ := Option.map_eq_some_iff.1 hsl'
    by_cases hw : e.writes p i = true
    · by_cases hin : i < f.length
      · right
        refine ⟨hw, ?_⟩
        rw [List.getElem?_eq_getElem hin, Option.map_some, if_pos hw]
      · left
        rw [if_neg (by simp [hin])] at hv
        refine ⟨bit_eq_true.2 ⟨sl, hsl, hv⟩, ?_⟩
        rw [List.getElem?_eq_none (Nat.le_of_not_lt hin)]
        rfl
    · left
      rw [if_neg (by simp [hw])] at hv
      refine ⟨bit_eq_true.2 ⟨sl, hsl, hv⟩, ?_⟩
      simp only [hw]
      cases f[i]? <;> rfl

end FingerEvidence

/-! ### The transitions of the convergence state -/

/-- The lookup in flight is gone, or is the same with every change of the hints versioned. -/
def Carried (f : Fingers) (c : FingerConvergenceState) (f' : Fingers)
    (c' : FingerConvergenceState) : Prop :=
  c'.evidence.Bounded ∧ (c'.attempt.lookup = none ∨
    c'.attempt.lookup = c.attempt.lookup ∧ Versioned f c.evidence f' c'.evidence)

lemma Carried.trans {f f' f'' : Fingers} {c c' c'' : FingerConvergenceState}
    (h : Carried f c f' c') (h' : Carried f' c' f'' c'') : Carried f c f'' c'' := by
  refine ⟨h'.1, ?_⟩
  rcases h'.2 with hnone | ⟨hlookup', hversions'⟩
  · exact Or.inl hnone
  · rw [hlookup']
    rcases h.2 with hnone | ⟨hlookup, hversions⟩
    · exact Or.inl hnone
    · exact Or.inr ⟨hlookup, hversions.trans hversions'⟩

namespace FingerConvergenceState

variable {c : FingerConvergenceState} {f f' : Fingers} {loc successor : Did}
  {request : FingerFixRequest} {nowMs : ℕ}

lemma carried_same (hb : c.evidence.Bounded) {c' : FingerConvergenceState}
    (he : c'.evidence = c.evidence) (ha : c'.attempt = .idle ∨ c'.attempt.lookup = c.attempt.lookup) :
    Carried f c f c' := by
  refine ⟨he ▸ hb, ?_⟩
  rcases ha with ha | ha
  · rw [ha]
    exact Or.inl rfl
  · exact Or.inr ⟨ha, he ▸ sameVersions_rfl.versioned f⟩

lemma invalidateHintChanges_carried (hb : c.evidence.Bounded) :
    Carried f c f' (c.invalidateHintChanges f f') := by
  obtain ⟨-, hversions, hbounded⟩ := c.evidence.invalidateHintChanges_spec f f' hb
  refine ⟨hbounded, ?_⟩
  rw [invalidateHintChanges]
  simp only
  split
  · exact Or.inl rfl
  · rename_i hkept
    rcases hversions with hexhausted | hversions
    · exact absurd (by rw [hexhausted]; simp) hkept
    · exact Or.inr ⟨rfl, hversions⟩

/-- A change of the hints leaves the attempt alone, unless it touches its slot or exhausts the
epoch counter. -/
lemma invalidateHintChanges_attempt (c : FingerConvergenceState) (f f' : Fingers) :
    (c.invalidateHintChanges f f').attempt = c.attempt ∨
      (c.invalidateHintChanges f f').attempt = .idle ∧
        ((∃ q, c.attempt.request = some q ∧ f'[q.slotIndex]? ≠ f[q.slotIndex]?) ∨
          checkedAdd u64Max c.evidence.epoch 1 = none) := by
  rw [invalidateHintChanges]
  simp only
  split
  · rename_i hretired
    refine Or.inr ⟨rfl, ?_⟩
    rw [Bool.or_eq_true, Option.any_eq_true, decide_eq_true_eq] at hretired
    rcases hretired with ⟨q, hq, hchanged⟩ | hexhausted
    · left
      exact ⟨q, hq, fun heq => of_decide_eq_true hchanged heq.symm⟩
    · right
      rw [FingerEvidence.invalidateHintChanges] at hexhausted
      split at hexhausted
      · cases hexhausted
      · rcases hnext : checkedAdd u64Max c.evidence.epoch 1 with _ | next
        · rfl
        · rw [hnext] at hexhausted
          cases hexhausted
  · exact Or.inl rfl

lemma invalidateAllEvidence_attempt (c : FingerConvergenceState) :
    c.invalidateAllEvidence.attempt = .idle := by
  rw [invalidateAllEvidence]
  split
  · rename_i hidle
    rw [Bool.and_eq_true] at hidle
    cases ha : c.attempt with
    | idle => rfl
    | awaitingReport p => rw [ha] at hidle; cases hidle.1
    | awaitingAdmission a => rw [ha] at hidle; cases hidle.1
  · rfl

lemma canConsume_request {a : FingerAttempt} (h : a.canConsume request successor = true) :
    a.request = some request := by
  cases a with
  | idle => cases h
  | awaitingReport p => exact congrArg some (of_decide_eq_true h)
  | awaitingAdmission a =>
    rw [FingerAttempt.canConsume, Bool.and_eq_true] at h
    exact congrArg some (of_decide_eq_true h.1)

/-- A validated proof answers the lookup in flight with the reported successor. -/
lemma validatedProof_lookup {n : ℕ} {p : FingerRangeProof}
    (h : c.validatedProof loc n request successor nowMs = .ok p) :
    c.attempt.canConsume request successor = true ∧
      c.attempt.lookup = some (request, p.issuedEpoch) ∧ p.request = request ∧
      p.successor = successor := by
  unfold validatedProof FingerAttempt.proofSource at h
  have hcan : c.attempt.canConsume request successor = true := by
    by_contra hnot
    rw [if_pos hnot] at h
    cases h
  refine ⟨hcan, ?_⟩
  rw [if_neg (not_not.2 hcan)] at h
  by_cases hexpired : c.attempt.isExpired nowMs = true
  · rw [if_pos hexpired] at h
    cases h
  rw [if_neg hexpired] at h
  cases ha : c.attempt with
  | idle =>
    rw [ha] at hcan
    cases hcan
  | awaitingAdmission admission =>
    rw [ha] at h hcan
    obtain rfl := Except.ok.inj h
    rw [FingerAttempt.canConsume, Bool.and_eq_true] at hcan
    have hrequest := of_decide_eq_true hcan.1
    exact ⟨by rw [FingerAttempt.lookup, hrequest], hrequest, of_decide_eq_true hcan.2⟩
  | awaitingReport pending =>
    rw [ha] at h hcan
    simp only at h
    split at h
    · cases h
    · split at h
      · obtain rfl := Except.ok.inj h
        exact ⟨by rw [FingerAttempt.lookup, of_decide_eq_true hcan], rfl, rfl⟩
      · cases h

/-- A proof validated from a report ends where the Chord range does. -/
lemma validatedProof_endSlot {n : ℕ} {p : FingerRangeProof} {pending : PendingFingerLookup}
    (ha : c.attempt = .awaitingReport pending)
    (h : c.validatedProof loc n request successor nowMs = .ok p) :
    fingerProofEnd loc successor request.slotIndex n = some p.endSlot := by
  unfold validatedProof FingerAttempt.proofSource at h
  rw [ha] at h
  split at h
  · cases h
  · rename_i hadmission
    split at hadmission
    · cases hadmission
    · split at hadmission
      · cases hadmission
      · cases hadmission
  · split at h
    · cases h
    · rename_i stop hstop
      simp only at h
      split at h
      · obtain rfl := Except.ok.inj h
        exact hstop
      · cases h

variable (c f request successor nowMs) in
/-- A rejection retires the token it carries if it is current, and otherwise does nothing. -/
lemma retireRejectedCurrent_spec (rejection : FingerReportRejection) :
    (c.retireRejectedCurrent f request successor rejection nowMs).evidence = c.evidence ∧
      (c.attempt.canConsume request successor = false ∧
          c.retireRejectedCurrent f request successor rejection nowMs = c ∨
        c.attempt.canConsume request successor = true ∧
          (c.retireRejectedCurrent f request successor rejection nowMs).attempt = .idle) := by
  rw [retireRejectedCurrent]
  split
  · rename_i hcan
    exact ⟨rfl, Or.inl ⟨Bool.not_eq_true _ ▸ hcan, rfl⟩⟩
  · rename_i hcan
    rw [not_not] at hcan
    split
    · exact ⟨rfl, Or.inr ⟨hcan, rfl⟩⟩
    · exact ⟨rfl, Or.inr ⟨hcan, rfl⟩⟩

variable (c f request successor nowMs) in
lemma retireRejectedCurrent_lookup (rejection : FingerReportRejection) :
    (c.retireRejectedCurrent f request successor rejection nowMs).attempt = .idle ∨
      (c.retireRejectedCurrent f request successor rejection nowMs).attempt.lookup =
        c.attempt.lookup := by
  rcases (retireRejectedCurrent_spec c f successor request nowMs rejection).2 with
    ⟨-, hc⟩ | ⟨-, ha⟩
  · exact Or.inr (by rw [hc])
  · exact Or.inl ha

lemma deferResult_carried (hb : c.evidence.Bounded) :
    Carried f c f (c.deferResult loc f request successor nowMs) ∧
      (c.deferResult loc f request successor nowMs).evidence = c.evidence := by
  rw [deferResult]
  split
  · rename_i rejection _
    obtain ⟨he, -⟩ := retireRejectedCurrent_spec c f successor request nowMs rejection
    exact ⟨carried_same hb he (retireRejectedCurrent_lookup c f successor request nowMs _), he⟩
  · rename_i p hp
    obtain ⟨-, hlookup, hrequest, -⟩ := validatedProof_lookup hp
    split
    · exact ⟨carried_same hb rfl (Or.inr rfl), rfl⟩
    · exact ⟨carried_same hb rfl (Or.inr (by rw [hlookup, ← hrequest]; rfl)), rfl⟩

lemma cancel_carried (hb : c.evidence.Bounded) : Carried f c f (c.cancel f request nowMs) ∧
    (c.cancel f request nowMs).evidence = c.evidence := by
  rw [cancel]
  split
  · exact ⟨carried_same hb rfl (Or.inl rfl), rfl⟩
  · exact ⟨carried_same hb rfl (Or.inr rfl), rfl⟩

variable (c loc f request successor nowMs) in
/-- A report carries another token and does nothing; or it is rejected and the attempt is over;
or its proof is applied and the attempt is over. -/
lemma applyResult_cases :
    c.attempt.canConsume request successor = false ∧
        c.applyResult loc f request successor nowMs = (f, c) ∨
      c.attempt.canConsume request successor = true ∧
        (c.applyResult loc f request successor nowMs).1 = f ∧
        (c.applyResult loc f request successor nowMs).2.evidence = c.evidence ∧
        (c.applyResult loc f request successor nowMs).2.attempt = .idle ∨
      ∃ p, c.validatedProof loc f.length request successor nowMs = .ok p ∧
        (c.applyResult loc f request successor nowMs).1 = (c.evidence.apply f loc p).1 ∧
        (c.applyResult loc f request successor nowMs).2.evidence = (c.evidence.apply f loc p).2 ∧
        (c.applyResult loc f request successor nowMs).2.attempt = .idle := by
  rw [applyResult]
  split
  · rename_i rejection _
    obtain ⟨he, ⟨hcan, hc⟩ | ⟨hcan, ha⟩⟩ :=
      retireRejectedCurrent_spec c f successor request nowMs rejection
    · exact Or.inl ⟨hcan, by rw [hc]⟩
    · exact Or.inr (Or.inl ⟨hcan, rfl, he, ha⟩)
  · rename_i p hp
    have howned := canConsume_request (validatedProof_lookup hp).1
    refine Or.inr (Or.inr ⟨p, hp, rfl, rfl, ?_⟩)
    simp only [FingerAttempt.clearIfOwned, if_pos howned]

lemma applyResult_carried (hb : c.evidence.Bounded) :
    Carried f c (c.applyResult loc f request successor nowMs).1
      (c.applyResult loc f request successor nowMs).2 := by
  rcases applyResult_cases c f loc successor request nowMs with
    ⟨-, hsame⟩ | ⟨-, hf, he, ha⟩ | ⟨p, -, -, he, ha⟩
  · rw [hsame]
    exact carried_same hb rfl (Or.inr rfl)
  · rw [hf]
    exact carried_same hb he (Or.inl ha)
  · refine ⟨?_, ?_⟩
    · rw [he]
      exact (c.evidence.apply_spec f loc p).1.bounded hb
    · rw [ha]
      exact Or.inl rfl

lemma confirmRange_carried (hb : c.evidence.Bounded) (start stop : ℕ) :
    Carried f c f (c.confirmRange start stop) := by
  obtain ⟨hsame, -⟩ := c.evidence.confirmRange_spec start stop
  refine ⟨hsame.bounded hb, ?_⟩
  simp only [confirmRange, FingerAttempt.clearIfSlotIn]
  split
  · exact Or.inl rfl
  · exact Or.inr ⟨rfl, hsame.versioned f⟩

lemma beginRevalidation_carried (hb : c.evidence.Bounded) (first : ℕ) :
    Carried f c f (c.beginRevalidation f first) ∧
      ∀ i, (c.beginRevalidation f first).evidence.bit i = true → c.evidence.bit i = true := by
  rw [beginRevalidation]
  split
  · obtain ⟨hsame, hbits⟩ := c.evidence.reopenNextRange_spec f c.cursor
    exact ⟨⟨hsame.bounded hb, Or.inr ⟨rfl, hsame.versioned f⟩⟩, hbits⟩
  · exact ⟨carried_same hb rfl (Or.inr rfl), fun _ => id⟩

lemma invalidateAllEvidence_carried (hb : c.evidence.Bounded) :
    Carried f c f' c.invalidateAllEvidence := by
  refine ⟨?_, Or.inl (congrArg _ c.invalidateAllEvidence_attempt)⟩
  rw [invalidateAllEvidence]
  split
  · exact hb
  · exact c.evidence.invalidateAll_bounded hb

lemma invalidateAllEvidence_bit (c : FingerConvergenceState) (i : ℕ) :
    c.invalidateAllEvidence.evidence.bit i = false := by
  rw [invalidateAllEvidence]
  split
  · rename_i hidle
    rw [Bool.and_eq_true] at hidle
    by_contra hbit
    obtain ⟨sl, hsl, hv⟩ := bit_eq_true.1 (Bool.not_eq_false _ ▸ hbit)
    have hall := List.all_eq_true.1 hidle.2 sl (List.mem_of_getElem? hsl)
    rw [hv] at hall
    cases hall
  · exact c.evidence.invalidateAll_bit i

/-- A turn reserves nothing and at most times the attempt out, or issues a lookup at the present
epoch. -/
lemma prepareLookup_cases (f : Fingers) (first t : ℕ) (id : Uuid) :
    (c.prepareLookup f first t id).1.evidence = c.evidence ∧
      ((c.prepareLookup f first t id).2 = none ∧
          ((c.prepareLookup f first t id).1 = c ∨ c.attempt.isExpired t = true ∧
            (c.prepareLookup f first t id).1.attempt = .idle) ∨
        c.attempt = .idle ∧ ∃ q : FingerFixRequest, q.requestId = id ∧
          (c.prepareLookup f first t id).2 = some q ∧ ∃ expires,
          (c.prepareLookup f first t id).1.attempt =
            .awaitingReport ⟨q, c.evidence.epoch, expires⟩) := by
  rw [prepareLookup]
  split
  · exact ⟨rfl, Or.inl ⟨rfl, Or.inl rfl⟩⟩
  split
  · rename_i hexpired
    split
    · exact ⟨rfl, Or.inl ⟨rfl, Or.inr ⟨hexpired, rfl⟩⟩⟩
    · exact ⟨rfl, Or.inl ⟨rfl, Or.inl rfl⟩⟩
  split
  · exact ⟨rfl, Or.inl ⟨rfl, Or.inl rfl⟩⟩
  rename_i hready
  split
  · exact ⟨rfl, Or.inl ⟨rfl, Or.inl rfl⟩⟩
  · rename_i q hq
    refine ⟨rfl, Or.inr ⟨?_, q, ?_, rfl, _, rfl⟩⟩
    · cases ha : c.attempt with
      | idle => rfl
      | awaitingReport p => simp [ha, FingerAttempt.isIdle] at hready
      | awaitingAdmission a => simp [ha, FingerAttempt.isIdle] at hready
    · obtain ⟨slot, -, hslot⟩ := Option.bind_eq_some_iff.1 hq
      unfold FingerFixRequest.new at hslot
      split at hslot
      · exact (Option.some.inj hslot) ▸ rfl
      · cases hslot

end FingerConvergenceState

end Rings
