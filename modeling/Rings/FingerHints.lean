import Rings.Topology

/-!
What the transitions do to the finger hints: learning a peer, removing one, and writing a
proved range. A retained proof fits the geometry of the table, since the convergence state
builds one only from a validated report.
-/

namespace Rings

/-! ### Finger hints -/

def Spaced (loc : Did) (f : Fingers) : Prop := ∀ i p, f[i]? = some (some p) → 2 ^ i ≤ dist loc p

/-- What joining `peer` makes of a slot, in a table no wider than the ring. -/
lemma joinSlot_eq {loc peer : Did} {i : ℕ} (hi : i < 160) (old : Option Did) :
    joinSlot loc peer i old =
      if 2 ^ i ≤ dist loc peer ∧ old.all (dist loc peer ≤ dist loc ·) then some peer else old := by
  unfold joinSlot
  rw [powerOfTwo_toNat hi]
  have hpos : 0 < 2 ^ i := Nat.two_pow_pos i
  have hloc : peer = loc → dist loc peer = 0 := by rintro rfl; simp
  cases old with
  | none =>
    by_cases h : peer = loc
    · rw [if_pos (Or.inr h), if_neg (by rintro ⟨h1, -⟩; have := hloc h; omega)]
    · by_cases hd : dist loc peer < 2 ^ i
      · rw [if_pos (Or.inl hd), if_neg (by rintro ⟨h1, -⟩; omega)]
      · rw [if_neg (by simp [h, hd]), if_pos ⟨by omega, by simp⟩]
  | some q =>
    by_cases h : dist loc peer < 2 ^ i ∨ peer = loc
    · rw [if_pos h, if_neg]
      rintro ⟨h1, -⟩
      rcases h with h | h
      · omega
      · have := hloc h; omega
    · rw [if_neg h]
      simp only [not_or, not_lt] at h
      by_cases hq : dist loc q < dist loc peer
      · simp [hq, Nat.not_le.mpr hq]
      · simp [hq, Nat.not_lt.mp hq, h.1]

lemma fingerJoin_length (loc peer : Did) (f : Fingers) :
    (fingerJoin loc f peer).length = f.length := by
  simp [fingerJoin]

lemma fingerJoin_getElem? (loc peer : Did) (f : Fingers) (i : ℕ) :
    (fingerJoin loc f peer)[i]? = f[i]?.map (joinSlot loc peer i) := by
  simp [fingerJoin]

lemma Spaced.join {loc peer : Did} {f : Fingers} (hw : f.length ≤ 160) (h : Spaced loc f) :
    Spaced loc (fingerJoin loc f peer) := by
  intro i p hp
  rw [fingerJoin_getElem?, Option.map_eq_some_iff] at hp
  obtain ⟨old, hold, hp⟩ := hp
  have hi : i < f.length := (List.getElem?_eq_some_iff.mp hold).1
  rw [joinSlot_eq (by omega)] at hp
  split at hp
  · rename_i hc
    obtain rfl := Option.some.inj hp
    exact hc.1
  · exact h i p (by rw [hold, hp])

lemma Spaced.foldl_join {loc : Did} (ps : List Did) :
    ∀ {f : Fingers}, f.length ≤ 160 → Spaced loc f →
      Spaced loc (ps.foldl (fingerJoin loc) f) ∧
        (ps.foldl (fingerJoin loc) f).length = f.length := by
  induction ps with
  | nil => exact fun _ h => ⟨h, rfl⟩
  | cons p ps ih =>
    intro f hw h
    have := ih (f := fingerJoin loc f p) (by rw [fingerJoin_length]; exact hw) (h.join hw)
    rw [fingerJoin_length] at this
    exact this

lemma removeFingerPeer_length (f : Fingers) (peer : Did) :
    (removeFingerPeer f peer).length = f.length := by
  induction f with
  | nil => rfl
  | cons x f ih => simp [removeFingerPeer, ih]

/-- A slot after a removal holds a hint that stood at or above it, and never the peer. -/
lemma removeFingerPeer_getElem? (f : Fingers) (peer : Did) {i : ℕ} {p : Did}
    (h : (removeFingerPeer f peer)[i]? = some (some p)) :
    p ≠ peer ∧ ∃ j, i ≤ j ∧ f[j]? = some (some p) ∧
      ∀ m, i ≤ m → m < j → f[m]? = some (some peer) := by
  induction f generalizing i with
  | nil => simp [removeFingerPeer] at h
  | cons x f ih =>
    cases i with
    | succ i =>
      obtain ⟨hne, j, hj, hf, hrun⟩ := ih (by simpa [removeFingerPeer] using h)
      refine ⟨hne, j + 1, by omega, by simpa using hf, fun m h1 h2 => ?_⟩
      obtain ⟨m, rfl⟩ : ∃ m', m = m' + 1 := ⟨m - 1, by omega⟩
      simpa using hrun m (by omega) (by omega)
    | zero =>
      simp only [removeFingerPeer, List.getElem?_cons_zero, Option.some.injEq] at h
      split at h
      · rename_i hx
        -- the slot is the end of a run: it takes what the next slot takes
        have h0 : (removeFingerPeer f peer)[0]? = some (some p) := by
          rw [← List.head?_eq_getElem?]
          rcases hh : (removeFingerPeer f peer).head? with _ | _ | q
          · rw [hh] at h; simp at h
          · rw [hh] at h; simp at h
          · rw [hh] at h; simpa using h
        obtain ⟨hne, j, hj, hf, hrun⟩ := ih h0
        refine ⟨hne, j + 1, by omega, by simpa using hf, fun m h1 h2 => ?_⟩
        cases m with
        | zero => simp [hx]
        | succ m => simpa using hrun m (by omega) (by omega)
      · rename_i hx
        exact ⟨fun hp => hx (by rw [h, hp]), 0, le_refl 0, by simp [h], fun m _ h2 => by omega⟩

lemma Spaced.remove {loc peer : Did} {f : Fingers} (h : Spaced loc f) :
    Spaced loc (removeFingerPeer f peer) := by
  intro i p hp
  obtain ⟨-, j, hj, hf, -⟩ := removeFingerPeer_getElem? f peer hp
  exact le_trans (Nat.pow_le_pow_right (by omega) hj) (h j p hf)

/-! ### Retained proofs -/

/-- The proof's range is the one its successor proves in a table of `n` slots. -/
def FingerRangeProof.Fits (loc : Did) (n : ℕ) (p : FingerRangeProof) : Prop :=
  fingerProofEnd loc p.successor p.request.slotIndex n = some p.endSlot

/-- A proof retained for admission fits the table. -/
def FingerAttempt.Fits (loc : Did) (n : ℕ) (a : FingerAttempt) : Prop :=
  ∀ ad, a = .awaitingAdmission ad → ad.proof.Fits loc n

lemma FingerAttempt.fits_idle (loc : Did) (n : ℕ) : FingerAttempt.Fits loc n .idle := by
  intro ad h; cases h

/-- What a validated proof is: the caller's token and successor, over the proved range. -/
lemma validatedProof_ok {c : FingerConvergenceState} {loc : Did} {n : ℕ} {r : FingerFixRequest}
    {s : Did} {t : ℕ} {p : FingerRangeProof} (hc : c.attempt.Fits loc n)
    (h : c.validatedProof loc n r s t = .ok p) :
    p.request = r ∧ p.successor = s ∧ p.Fits loc n := by
  unfold FingerConvergenceState.validatedProof at h
  split at h
  · cases h
  · rename_i q hq
    obtain rfl := Except.ok.inj h
    unfold FingerAttempt.proofSource at hq
    split at hq
    · cases hq
    rename_i hcons
    split at hq
    · cases hq
    cases ha : c.attempt with
    | idle => rw [ha] at hq; cases hq
    | awaitingReport pd => rw [ha] at hq; cases hq
    | awaitingAdmission ad =>
      rw [ha] at hq hcons
      simp only [Except.ok.injEq, FingerProofSource.admission.injEq] at hq
      subst hq
      simp only [FingerAttempt.canConsume, Bool.and_eq_true, decide_eq_true_eq, not_not] at hcons
      exact ⟨hcons.1, hcons.2, hc ad ha⟩
  · rename_i epoch hq
    split at h
    · cases h
    · rename_i e he
      simp only at h
      split at h
      · obtain rfl := Except.ok.inj h
        exact ⟨rfl, rfl, he⟩
      · cases h

section Retained

variable {c : FingerConvergenceState} {loc : Did} {n : ℕ}

lemma FingerAttempt.Fits.ite {a : FingerAttempt} (h : a.Fits loc n) (b : Prop) [Decidable b] :
    (if b then FingerAttempt.idle else a).Fits loc n := by
  split
  · exact fits_idle loc n
  · exact h

lemma invalidateHintChanges_fits (h : c.attempt.Fits loc n) (b a : Fingers) :
    (c.invalidateHintChanges b a).attempt.Fits loc n := h.ite _

lemma invalidateAllEvidence_fits (h : c.attempt.Fits loc n) :
    c.invalidateAllEvidence.attempt.Fits loc n := by
  unfold FingerConvergenceState.invalidateAllEvidence
  split
  · exact h
  · exact FingerAttempt.fits_idle loc n

lemma beginRevalidation_fits (h : c.attempt.Fits loc n) (f : Fingers) (i : ℕ) :
    (c.beginRevalidation f i).attempt.Fits loc n := by
  unfold FingerConvergenceState.beginRevalidation
  dsimp only
  split <;> exact h

lemma retireRejectedCurrent_fits (h : c.attempt.Fits loc n) (f : Fingers) (r : FingerFixRequest)
    (s : Did) (j : FingerReportRejection) (t : ℕ) :
    (c.retireRejectedCurrent f r s j t).attempt.Fits loc n := by
  unfold FingerConvergenceState.retireRejectedCurrent
  split
  · exact h
  · split <;> exact FingerAttempt.fits_idle loc n

lemma prepareLookup_fits (h : c.attempt.Fits loc n) (f : Fingers) (i t : ℕ) (id : Uuid) :
    (c.prepareLookup f i t id).1.attempt.Fits loc n := by
  unfold FingerConvergenceState.prepareLookup
  split
  · exact h
  split
  · split
    · exact FingerAttempt.fits_idle loc n
    · exact h
  split
  · exact h
  split
  · exact h
  · intro ad had
    cases had

lemma deferResult_fits (f : Fingers) (h : c.attempt.Fits loc f.length) (r : FingerFixRequest)
    (s : Did) (t : ℕ) : (c.deferResult loc f r s t).attempt.Fits loc f.length := by
  unfold FingerConvergenceState.deferResult
  split
  · exact retireRejectedCurrent_fits h _ _ _ _ _
  · rename_i p hp
    split
    · exact h
    · intro ad had
      obtain rfl := FingerAttempt.awaitingAdmission.inj had
      exact (validatedProof_ok h hp).2.2

lemma applyResult_fits (f : Fingers) (h : c.attempt.Fits loc n) (r : FingerFixRequest)
    (s : Did) (t : ℕ) : (c.applyResult loc f r s t).2.attempt.Fits loc n := by
  unfold FingerConvergenceState.applyResult
  split
  · exact retireRejectedCurrent_fits h _ _ _ _ _
  · dsimp only [FingerAttempt.clearIfOwned]
    split
    · exact FingerAttempt.fits_idle loc n
    · exact h

lemma confirmRange_fits (h : c.attempt.Fits loc n) (i j : ℕ) :
    (c.confirmRange i j).attempt.Fits loc n := by
  dsimp only [FingerConvergenceState.confirmRange, FingerAttempt.clearIfSlotIn]
  split
  · exact FingerAttempt.fits_idle loc n
  · exact h

lemma cancel_fits (h : c.attempt.Fits loc n) (f : Fingers) (r : FingerFixRequest) (t : ℕ) :
    (c.cancel f r t).attempt.Fits loc n := by
  unfold FingerConvergenceState.cancel
  split
  · exact FingerAttempt.fits_idle loc n
  · exact h

end Retained

/-- What applying a report does to the hints: nothing, or the write of one fitting proof. -/
lemma applyResult_fingers {c : FingerConvergenceState} {loc : Did} {f : Fingers}
    (hc : c.attempt.Fits loc f.length) (r : FingerFixRequest) (s : Did) (t : ℕ) :
    (c.applyResult loc f r s t).1 = f ∨
      ∃ p : FingerRangeProof, p.successor = s ∧ p.Fits loc f.length ∧
        c.validatedProof loc f.length r s t = .ok p ∧
        (c.applyResult loc f r s t).1 = (c.evidence.apply f loc p).1 := by
  unfold FingerConvergenceState.applyResult
  split
  · exact Or.inl rfl
  · rename_i p hp
    obtain ⟨-, h2, h3⟩ := validatedProof_ok hc hp
    exact Or.inr ⟨p, h2, h3, hp, rfl⟩

lemma Spaced.apply {loc : Did} {f : Fingers} {e : FingerEvidence} {p : FingerRangeProof}
    (hp : p.Fits loc f.length) (h : Spaced loc f) : Spaced loc (e.apply f loc p).1 := by
  intro i q hq
  rw [FingerEvidence.apply_getElem?, Option.map_eq_some_iff] at hq
  obtain ⟨old, hold, hq⟩ := hq
  split at hq
  · rename_i hw
    split at hq
    · cases hq
    · rename_i hne
      obtain rfl := Option.some.inj hq
      have hcov := FingerEvidence.writes_covers hw
      have hspec := (fingerProofEnd_spec hp).2.2 hne
      exact le_trans (Nat.pow_le_pow_right (by omega) hcov.2) hspec.1
  · exact h i q (by rw [hold, hq])

lemma Spaced.applyResult {c : FingerConvergenceState} {loc : Did} {f : Fingers}
    (hc : c.attempt.Fits loc f.length) (h : Spaced loc f) (r : FingerFixRequest) (s : Did) (t : ℕ) :
    Spaced loc (c.applyResult loc f r s t).1 ∧ (c.applyResult loc f r s t).1.length = f.length := by
  rcases applyResult_fingers hc r s t with he | ⟨p, -, hp, -, he⟩ <;> rw [he]
  · exact ⟨h, rfl⟩
  · exact ⟨h.apply hp, FingerEvidence.apply_fingers_length ..⟩

end Rings
