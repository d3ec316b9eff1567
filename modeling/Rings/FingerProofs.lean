import Rings.ChordFixpoint

/-!
What a lookup answer proves about the finger table.

A lookup for slot `start` asks which member lies first at or after `loc + 2^start`. Measured from
`loc`, every member between that target and the answer is excluded, so all slots up to the
highest power of two within the answer's distance have the same finger. The next slot reaches
past the answer, where the report has seen nothing.
-/

namespace Rings

/-- `s` is the owner of slot `start`: the first node at or after the target, among the members
and the local node. -/
structure Answers (members : List Did) (loc : Did) (start : ℕ) (s : Did) : Prop where
  source : s ∈ members ∨ s = loc
  least : ∀ x, x ∈ members ∨ x = loc →
    dist (loc + powerOfTwo start) s ≤ dist (loc + powerOfTwo start) x

section Target

variable {loc x : Did} {start : ℕ}

/-- From the target, a node at or past it is nearer by the way to the target. -/
lemma dist_target (hs : start < 160) (h : 2 ^ start ≤ dist loc x) :
    2 ^ start + dist (loc + powerOfTwo start) x = dist loc x := by
  have := dist_add_of_le (a := loc) (b := loc + powerOfTwo start) (c := x)
    (by rw [dist_add_powerOfTwo _ hs]; exact h)
  rwa [dist_add_powerOfTwo _ hs] at this

lemma dist_target_wrap (hs : start < 160) (h : dist loc x < 2 ^ start) :
    2 ^ start + dist (loc + powerOfTwo start) x = dist loc x + 2 ^ 160 := by
  have hd := dist_detour loc (loc + powerOfTwo start) x
  rw [dist_add_powerOfTwo _ hs] at hd
  omega

lemma dist_target_local (hs : start < 160) :
    2 ^ start + dist (loc + powerOfTwo start) loc = 2 ^ 160 := by
  have h := dist_target_wrap hs (show dist loc loc < 2 ^ start by simp)
  rwa [dist_self, Nat.zero_add] at h

end Target

namespace Answers

variable {members : List Did} {loc s : Did} {start : ℕ}

lemma reach (h : Answers members loc start s) (hs : start < 160) (hne : s ≠ loc) :
    2 ^ start ≤ dist loc s := by
  by_contra hlt
  have hwrap := dist_target_wrap hs (show dist loc s < 2 ^ start by omega)
  have hloc : 2 ^ start + dist (loc + powerOfTwo start) loc = 2 ^ 160 := dist_target_local hs
  have hpos := dist_pos.mpr hne.symm
  have hle := h.least loc (Or.inr rfl)
  omega

lemma le_of_reach (h : Answers members loc start s) (hs : start < 160) (hne : s ≠ loc) {m : Did}
    (hm : m ∈ members) (hreach : 2 ^ start ≤ dist loc m) : dist loc s ≤ dist loc m := by
  have h1 := dist_target hs (h.reach hs hne)
  have h2 := dist_target hs hreach
  have hle := h.least m (Or.inl hm)
  omega

lemma lt_of_local (h : Answers members loc start loc) (hs : start < 160) {m : Did}
    (hm : m ∈ members) : dist loc m < 2 ^ start := by
  by_contra hge
  have h1 := dist_target hs (show 2 ^ start ≤ dist loc m by omega)
  have hloc : 2 ^ start + dist (loc + powerOfTwo start) loc = 2 ^ 160 := dist_target_local hs
  have hle := h.least m (Or.inl hm)
  have hlt := dist_lt loc m
  omega

/-- The answer is the finger of every slot from the asked one up to its own distance. -/
lemma finger_eq (h : Answers members loc start s) (hs : start < 160) {j : ℕ} (hj : start ≤ j)
    (hreach : s ≠ loc → 2 ^ j ≤ dist loc s) :
    finger members loc j = if s = loc then none else some s := by
  have hpow : (2 : ℕ) ^ start ≤ 2 ^ j := Nat.pow_le_pow_right (by omega) hj
  split
  · rename_i he
    subst he
    rcases hf : finger members s j with _ | m
    · rfl
    · obtain ⟨hm, -, hge, -⟩ := finger_eq_some hf
      have := h.lt_of_local hs hm
      omega
  · rename_i hne
    have hmem : s ∈ members := h.source.resolve_right hne
    obtain ⟨m, hf⟩ := finger_isSome hmem (hreach hne)
    obtain ⟨hm, -, hge, hmin⟩ := finger_eq_some hf
    have hle := hmin s hmem (hreach hne)
    have hge' := h.le_of_reach hs hne hm (le_trans hpow hge)
    rw [hf, dist_inj.mp (le_antisymm hle hge')]

lemma alone (h : Answers members loc start s) : Answers [s] loc start s where
  source := Or.inl (List.mem_singleton_self s)
  least := by
    rintro x (hx | rfl)
    · rw [List.mem_singleton.mp hx]
    · exact h.least x (Or.inr rfl)

lemma pair (h : Answers members loc start s) (hs : start < 160) (hne : s ≠ loc) {q : Did}
    (hq : dist loc s ≤ dist loc q) : Answers [s, q] loc start s where
  source := Or.inl (by simp)
  least := by
    rintro x (hx | rfl)
    · have h1 := dist_target hs (h.reach hs hne)
      have h2 := dist_target (x := q) hs (le_trans (h.reach hs hne) hq)
      simp only [List.mem_cons, List.not_mem_nil, or_false] at hx
      rcases hx with rfl | rfl
      · exact le_refl _
      · omega
    · exact h.least x (Or.inr rfl)

end Answers

lemma fingerProofEnd_isSome {loc s : Did} {start width : ℕ} (hs : start < width)
    (h : s ≠ loc → 2 ^ start ≤ dist loc s) : ∃ e, fingerProofEnd loc s start width = some e := by
  obtain ⟨last, rfl⟩ : ∃ last, width = last + 1 := ⟨width - 1, by omega⟩
  simp only [fingerProofEnd]
  rw [if_neg (by omega)]
  split
  · exact ⟨last, rfl⟩
  · rename_i hne
    rw [if_neg (by have := h hne; omega)]
    exact ⟨_, rfl⟩

lemma fingerProofEnd_local {loc : Did} {start width e : ℕ}
    (h : fingerProofEnd loc loc start width = some e) : e + 1 = width := by
  unfold fingerProofEnd at h
  split at h
  · cases h
  · simp only [if_true] at h
    split at h
    · cases h
    · rw [Option.some.inj h]

/-- **Finger proofs are sound and maximal.** The owner of a slot's target proves a range that
begins at the slot; on the whole range the operator answers the owner, and applying the proof
writes what the operator answers, into every slot of the range that admits it and no other. The
slot after the range is open: two memberships give the same report and different fingers there. -/
theorem finger_proof_sound_maximal (members : List Did) (loc s : Did) (start width : ℕ)
    (hw : width ≤ 160) (hs : start < width) (h : Answers members loc start s) :
    ∃ e, fingerProofEnd loc s start width = some e ∧ start ≤ e ∧ e < width ∧
      (∀ j, start ≤ j → j ≤ e →
        finger members loc j = if s = loc then none else some s) ∧
      (∀ (evidence : FingerEvidence) (fingers : Fingers) (proof : FingerRangeProof),
        proof.request.slotIndex = start → proof.successor = s → proof.endSlot = e →
        ∀ i, (evidence.apply fingers loc proof).1[i]? = fingers[i]?.map fun old =>
          if evidence.writes proof i then finger members loc i else old) ∧
      (∀ (evidence : FingerEvidence) (fingers : Fingers) (proof : FingerRangeProof),
        proof.request.slotIndex = start → proof.successor = s → proof.endSlot = e →
        ∀ j slot, start ≤ j → j ≤ e → j < fingers.length → evidence.slots[j]? = some slot →
          slot.admits proof = true →
          (evidence.apply fingers loc proof).1[j]? = some (finger members loc j) ∧
            (evidence.apply fingers loc proof).2.slots[j]? = some { slot with verified := true }) ∧
      (e + 1 < width → ∃ M₁ M₂ : List Did, Answers M₁ loc start s ∧ Answers M₂ loc start s ∧
        finger M₁ loc (e + 1) ≠ finger M₂ loc (e + 1)) := by
  have hs' : start < 160 := by omega
  obtain ⟨e, he⟩ := fingerProofEnd_isSome hs (h.reach hs')
  obtain ⟨hse, hew, hdist⟩ := fingerProofEnd_spec he
  have hfinger : ∀ j, start ≤ j → j ≤ e →
      finger members loc j = if s = loc then none else some s := by
    intro j hj hje
    refine h.finger_eq hs' hj fun hne => ?_
    exact le_trans (Nat.pow_le_pow_right (by omega) hje) (hdist hne).1
  have happly : ∀ (evidence : FingerEvidence) (fingers : Fingers) (proof : FingerRangeProof),
      proof.request.slotIndex = start → proof.successor = s → proof.endSlot = e →
      ∀ i, (evidence.apply fingers loc proof).1[i]? = fingers[i]?.map fun old =>
        if evidence.writes proof i then finger members loc i else old := by
    intro evidence fingers proof hstart hsucc hend i
    rw [FingerEvidence.apply_getElem?, hsucc]
    congr 1
    funext old
    by_cases hwr : evidence.writes proof i = true
    · have hcov := FingerEvidence.writes_covers hwr
      rw [if_pos hwr, if_pos hwr, hfinger i (by omega) (by omega)]
    · rw [if_neg hwr, if_neg hwr]
  refine ⟨e, he, hse, hew, hfinger, happly, ?_, fun hlt => ?_⟩
  · intro evidence fingers proof hstart hsucc hend j slot hj hje hlen hslot hadmits
    have hwrites : evidence.writes proof j = true := by
      rw [FingerEvidence.writes, covers_iff.2 ⟨by omega, by omega⟩, hslot]
      exact hadmits
    constructor
    · rw [happly evidence fingers proof hstart hsucc hend, List.getElem?_eq_getElem hlen,
        Option.map_some, if_pos hwrites]
    · rw [FingerEvidence.apply_slots_getElem?, hslot, Option.map_some,
        if_pos ⟨hlen, hwrites⟩]
  · have hne : s ≠ loc := by
      rintro rfl
      have := fingerProofEnd_local he
      omega
    have hnear := (hdist hne).2 hlt
    -- a node at the next slot's own target changes that slot and nothing before it
    have hq : dist loc (loc + powerOfTwo (e + 1)) = 2 ^ (e + 1) :=
      dist_add_powerOfTwo _ (by omega)
    refine ⟨[s], [s, loc + powerOfTwo (e + 1)], h.alone, h.pair hs' hne (by omega), ?_⟩
    have hnone : finger [s] loc (e + 1) = none := by
      rcases hf : finger [s] loc (e + 1) with _ | m
      · rfl
      · obtain ⟨hm, -, hge, -⟩ := finger_eq_some hf
        rw [List.mem_singleton.mp hm] at hge
        omega
    obtain ⟨m, hsome⟩ : ∃ m, finger [s, loc + powerOfTwo (e + 1)] loc (e + 1) = some m :=
      finger_isSome (List.mem_cons_of_mem _ (List.mem_singleton_self _)) hq.ge
    rw [hnone, hsome]
    exact fun hno => by cases hno

/-- The evidence of four slots, the hint of slot 2 changed in epoch 3. -/
def changedSince : FingerEvidence := ⟨3, [⟨0, false⟩, ⟨2, false⟩, ⟨3, false⟩, ⟨0, false⟩]⟩

/-- The owner of slot 1, on a power of two: its proof ends at slot 2, and a proof issued in epoch 2
writes slot 1 and leaves the hint of slot 2. -/
theorem finger_proof_sound_maximal_four :
    fingerProofEnd 0 4 1 4 = some 2 ∧
      (∀ j, 1 ≤ j → j ≤ 2 → finger [1, 4, 9] 0 j = some 4) ∧
      (∀ requestId, (changedSince.apply [some 1, some 9, some 9, some 9] 0
        ⟨⟨1, requestId⟩, 2, 4, 2⟩).1[1]? = some (some 4)) ∧
      (∀ requestId, (changedSince.apply [some 1, some 9, some 9, some 9] 0
        ⟨⟨1, requestId⟩, 2, 4, 2⟩).1[2]? = some (some 9)) ∧
      ∃ M₁ M₂ : List Did, Answers M₁ 0 1 4 ∧ Answers M₂ 0 1 4 ∧ finger M₁ 0 3 ≠ finger M₂ 0 3 := by
  have h : Answers [1, 4, 9] 0 1 4 :=
    ⟨by decide, by
      rintro x (hx | rfl)
      · simp only [List.mem_cons, List.not_mem_nil, or_false] at hx
        rcases hx with rfl | rfl | rfl <;> decide
      · decide⟩
  obtain ⟨e, he, -, -, hf, happly, hwritten, hopen⟩ :=
    finger_proof_sound_maximal [1, 4, 9] 0 4 1 4 (by decide) (by decide) h
  have hend : fingerProofEnd 0 4 1 4 = some 2 := by decide +kernel
  obtain rfl : e = 2 := Option.some.inj (he.symm.trans hend)
  refine ⟨hend, hf, fun requestId => ?_, fun requestId => ?_, hopen (by decide)⟩
  · have hone := (hwritten changedSince [some 1, some 9, some 9, some 9] ⟨⟨1, requestId⟩, 2, 4, 2⟩
      rfl rfl rfl 1 ⟨2, false⟩ le_rfl (by decide) (by decide) rfl rfl).1
    rwa [hf 1 le_rfl (by decide), if_neg (by decide)] at hone
  · exact happly changedSince [some 1, some 9, some 9, some 9] ⟨⟨1, requestId⟩, 2, 4, 2⟩
      rfl rfl rfl 2

end Rings
