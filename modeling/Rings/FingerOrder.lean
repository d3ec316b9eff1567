import Rings.TopologyShape
import Rings.StabilizeTokens

/-!
The order of the finger hints along a run.

`closest_preceding_finger` scans from the top and relies on no higher slot pointing nearer than
a lower one. Two writes can break that: a join that fills an empty slot below a nearer hint, and
a lookup report that is applied around hints it disagrees with. The condition under which one
step keeps the order is exact, so a run keeps it in every state exactly when every step meets
the condition.
-/

namespace Rings

def Ordered (loc : Did) (f : Fingers) : Prop :=
  ∀ (i j : ℕ) (a b : Did), i < j → f[i]? = some (some a) → f[j]? = some (some b) →
    dist loc a ≤ dist loc b

/-! ### The evidence is as wide as the table -/

section Width

variable (c : FingerConvergenceState) (f : Fingers)

lemma retireRejectedCurrent_evidence (r : FingerFixRequest) (x : Did) (j : FingerReportRejection)
    (t : ℕ) : (c.retireRejectedCurrent f r x j t).evidence = c.evidence := by
  unfold FingerConvergenceState.retireRejectedCurrent
  split
  · rfl
  · split <;> rfl

lemma prepareLookup_evidence (i t : ℕ) (id : Uuid) :
    (c.prepareLookup f i t id).1.evidence = c.evidence := by
  unfold FingerConvergenceState.prepareLookup
  split
  · rfl
  split
  · split <;> rfl
  split
  · rfl
  split <;> rfl

lemma applyResult_width (loc : Did) (r : FingerFixRequest) (x : Did) (t : ℕ) :
    (c.applyResult loc f r x t).2.evidence.slots.length = c.evidence.slots.length := by
  unfold FingerConvergenceState.applyResult
  split
  · rw [retireRejectedCurrent_evidence]
  · exact FingerEvidence.apply_slots_length _ _ loc _

lemma deferResult_evidence (loc : Did) (r : FingerFixRequest) (x : Did) (t : ℕ) :
    (c.deferResult loc f r x t).evidence = c.evidence := by
  unfold FingerConvergenceState.deferResult
  split
  · rw [retireRejectedCurrent_evidence]
  · split <;> rfl

lemma invalidateHintChanges_width (b a : Fingers) :
    (c.invalidateHintChanges b a).evidence.slots.length = c.evidence.slots.length :=
  FingerEvidence.invalidateHintChanges_slots_length ..

lemma invalidateAllEvidence_width :
    c.invalidateAllEvidence.evidence.slots.length = c.evidence.slots.length := by
  unfold FingerConvergenceState.invalidateAllEvidence
  split
  · rfl
  · exact FingerEvidence.invalidateAll_slots_length _

lemma beginRevalidation_width (i : ℕ) :
    (c.beginRevalidation f i).evidence.slots.length = c.evidence.slots.length := by
  unfold FingerConvergenceState.beginRevalidation
  dsimp only
  split
  · exact FingerEvidence.reopenNextRange_slots_length ..
  · rfl

lemma cancel_evidence (r : FingerFixRequest) (t : ℕ) : (c.cancel f r t).evidence = c.evidence := by
  unfold FingerConvergenceState.cancel
  split <;> rfl

end Width

lemma stepEvent_width (s : TopologyState) (e : TopologyEvent) (k : ℕ) :
    (stepEvent s e k).state.fingerConvergence.evidence.slots.length =
      s.fingerConvergence.evidence.slots.length := by
  cases e with
  | admitPeer peer proof t =>
    simp only [stepEvent, stepAdmit]
    split
    · rfl
    · refine (invalidateHintChanges_width _ _ _).trans ?_
      cases proof with
      | none => rfl
      | some r => exact applyResult_width ..
  | remove peer r =>
    simp only [stepEvent, stepRemove, rehint]
    generalize List.isEmpty _ = empty
    cases empty
    · exact invalidateHintChanges_width _ _ _
    · exact (invalidateAllEvidence_width _).trans (invalidateHintChanges_width _ _ _)
  | beginStabilize id =>
    simp only [stepEvent, stepBegin]
    split
    · rfl
    · split <;> rfl
  | stabilize r id ss p =>
    simp only [stepEvent, stepStabilize, rehint]
    split
    · rfl
    · dsimp only
      split
      · exact (FingerEvidence.confirmRange_slots_length ..).trans
          (invalidateHintChanges_width _ _ _)
      · exact invalidateHintChanges_width _ _ _
  | beginFingerRevalidation => exact beginRevalidation_width ..
  | advanceFingerConvergence t id =>
    simp only [stepEvent, stepFixFinger]
    split
    · rfl
    split
    · exact congrArg (·.slots.length) (prepareLookup_evidence ..)
    · split
      · refine (applyResult_width ..).trans ?_
        exact congrArg (·.slots.length) (prepareLookup_evidence ..)
      · exact congrArg (·.slots.length) (prepareLookup_evidence ..)
  | applyFinger r x t => exact applyResult_width ..
  | deferFinger r x t => exact congrArg (·.slots.length) (deferResult_evidence ..)
  | cancelFinger r t => exact congrArg (·.slots.length) (cancel_evidence ..)
  | _ => rfl

/-! ### A lookup is only issued for a remote slot -/

lemma firstUnverifiedIn_bounds {e : FingerEvidence} {lo hi i : ℕ}
    (h : e.firstUnverifiedIn lo hi = some i) : lo ≤ i ∧ i < e.slots.length := by
  obtain ⟨j, hj, rfl⟩ := Option.map_eq_some_iff.mp h
  have hlt := (List.findIdx?_eq_some_iff_findIdx_eq.mp hj).1
  rw [List.length_drop, List.length_take] at hlt
  omega

lemma nextUnverifiedCyclic_bounds {e : FingerEvidence} {first cursor i : ℕ}
    (h : e.nextUnverifiedCyclic first cursor = some i) : first ≤ i ∧ i < e.slots.length := by
  rcases Option.or_eq_some_iff.mp h with h | ⟨-, h⟩
  · have := firstUnverifiedIn_bounds h
    omega
  · exact firstUnverifiedIn_bounds h

lemma prepareLookup_slot {c : FingerConvergenceState} {f : Fingers} {first t : ℕ} {id : Uuid}
    {r : FingerFixRequest} (h : (c.prepareLookup f first t id).2 = some r) :
    first ≤ r.slotIndex ∧ r.slotIndex < c.evidence.slots.length := by
  unfold FingerConvergenceState.prepareLookup at h
  split at h
  · cases h
  split at h
  · split at h <;> cases h
  split at h
  · cases h
  split at h
  · cases h
  rename_i r' hr
  obtain rfl := Option.some.inj h
  obtain ⟨i, hi, hnew⟩ := Option.bind_eq_some_iff.mp hr
  unfold FingerFixRequest.new at hnew
  split at hnew
  · obtain rfl := Option.some.inj hnew
    exact nextUnverifiedCyclic_bounds hi
  · cases hnew

/-- The turn that issues a lookup writes no hint: a slot outside the local successor interval
has no local answer. -/
lemma stepFixFinger_fingers_eq {s : TopologyState} (hw : s.fingers.length ≤ 160)
    (he : s.fingerConvergence.evidence.slots.length = s.fingers.length) (t : ℕ) (id : Uuid) :
    (stepFixFinger s t id).state.fingers = s.fingers := by
  unfold stepFixFinger
  split
  · rfl
  rename_i hguard
  simp only [Bool.or_eq_true, not_or, Option.isNone_iff_eq_none] at hguard
  obtain ⟨head, hhead⟩ := Option.ne_none_iff_exists'.mp hguard.2
  dsimp only
  split
  · rfl
  rename_i r hr
  obtain ⟨hlow, hhigh⟩ := prepareLookup_slot hr
  have hne : head ≠ s.localDid := by
    have := List.find?_some hhead
    simpa using this
  have hd : dist s.localDid head ≠ 0 := (dist_pos.mpr hne.symm).ne'
  -- the slot lies above the whole local range, so its target lies past the head
  have hfar : dist s.localDid head < 2 ^ r.slotIndex := by
    obtain ⟨last, hlast⟩ : ∃ last, s.fingers.length = last + 1 := ⟨s.fingers.length - 1, by omega⟩
    have hend : fingerProofEnd s.localDid head 0 s.fingers.length =
        some (min (dist s.localDid head).log2 last) := by
      rw [hlast]
      simp only [fingerProofEnd]
      rw [if_neg (by omega), if_neg hne, if_neg (by simp; omega)]
    rw [firstRemoteSlot, localSuccessorRangeEnd, hhead, Option.bind_some, hend, Option.elim_some]
      at hlow
    exact lt_of_lt_of_le Nat.lt_log2_self (Nat.pow_le_pow_right (by omega) (by omega))
  have hslot : r.slotIndex < 160 := by omega
  split
  · rename_i owner hfind
    exfalso
    rw [findSuccessor] at hfind
    have hhead' : successorHead { s with fingerConvergence :=
        (s.fingerConvergence.prepareLookup s.fingers (firstRemoteSlot s) t id).1 } = some head :=
      hhead
    rw [hhead'] at hfind
    dsimp only at hfind
    rw [dist_add_powerOfTwo _ hslot, if_neg (by omega)] at hfind
    cases hfind
  · rfl

/-! ### The order after each kind of write -/

section Writes

variable {loc : Did} {f h : Fingers}

lemma Ordered.clear (hf : Ordered loc f) {W : ℕ → Bool}
    (hh : ∀ i, h[i]? = f[i]?.map fun old => if W i then none else old) : Ordered loc h := by
  have hkept : ∀ (i : ℕ) (a : Did), h[i]? = some (some a) → f[i]? = some (some a) := by
    intro i a ha
    rw [hh, Option.map_eq_some_iff] at ha
    obtain ⟨old, hold, ha⟩ := ha
    split at ha
    · cases ha
    · rw [hold, ha]
  exact fun i j a b hij ha hb => hf i j a b hij (hkept i a ha) (hkept j b hb)

/-- Removing a peer keeps the order: a slot takes the first other hint at or above it. -/
lemma Ordered.remove (hf : Ordered loc f) (peer : Did) :
    Ordered loc (removeFingerPeer f peer) := by
  intro i j a b hij ha hb
  obtain ⟨hane, i', hi', hfa, hrun⟩ := removeFingerPeer_getElem? f peer ha
  obtain ⟨hbne, j', hj', hfb, -⟩ := removeFingerPeer_getElem? f peer hb
  rcases Nat.lt_or_ge j' i' with hlt | hge
  · have := hrun j' (by omega) hlt
    rw [hfb] at this
    exact absurd (Option.some.inj (Option.some.inj this)) hbne
  · rcases Nat.eq_or_lt_of_le hge with he | hlt
    · rw [he, hfb] at hfa
      rw [Option.some.inj (Option.some.inj hfa)]
    · exact hf i' j' a b hlt hfa hfb

/-- Writing one peer into some slots keeps the order exactly when the hints left below are no
farther and the hints left above no nearer. -/
lemma Ordered.write_iff (hf : Ordered loc f) {W : ℕ → Bool} {x : Did}
    (hh : ∀ i, h[i]? = f[i]?.map fun old => if W i then some x else old) :
    Ordered loc h ↔ ∀ (i j : ℕ) (b : Did), i < f.length → W i = true → W j = false →
      f[j]? = some (some b) → (i < j → dist loc x ≤ dist loc b) ∧
        (j < i → dist loc b ≤ dist loc x) := by
  have hnew : ∀ i < f.length, W i = true → h[i]? = some (some x) := by
    intro i hi hw
    rw [hh, List.getElem?_eq_getElem hi, Option.map_some, if_pos hw]
  have hold : ∀ (j : ℕ) (b : Did), W j = false → f[j]? = some (some b) → h[j]? = some (some b) := by
    intro j b hw hb
    rw [hh, hb, Option.map_some, hw]
    rfl
  constructor
  · intro ho i j b hi hwi hwj hb
    exact ⟨fun hij => ho i j x b hij (hnew i hi hwi) (hold j b hwj hb),
      fun hji => ho j i b x hji (hold j b hwj hb) (hnew i hi hwi)⟩
  · intro hc i j a b hij ha hb
    rw [hh, Option.map_eq_some_iff] at ha hb
    obtain ⟨oi, hoi, ha⟩ := ha
    obtain ⟨oj, hoj, hb⟩ := hb
    have hi := (List.getElem?_eq_some_iff.mp hoi).1
    have hj := (List.getElem?_eq_some_iff.mp hoj).1
    cases hwi : W i <;> cases hwj : W j <;>
      simp only [hwi, hwj, if_true, Bool.false_eq_true, if_false] at ha hb
    · exact hf i j a b hij (by rw [hoi, ha]) (by rw [hoj, hb])
    · obtain rfl := Option.some.inj hb
      exact (hc j i a hj hwj hwi (by rw [hoi, ha])).2 hij
    · obtain rfl := Option.some.inj ha
      exact (hc i j b hi hwi hwj (by rw [hoj, hb])).1 hij
    · rw [← Option.some.inj ha, ← Option.some.inj hb]

lemma Ordered.admit_iff (hf : Ordered loc f) (hw : f.length ≤ 160) {W : ℕ → Bool} {p : Did}
    (hfit : ∀ i, W i = true → 2 ^ i ≤ dist loc p)
    (hh : ∀ i, h[i]? = f[i]?.map fun old => if W i then some p else joinSlot loc p i old) :
    Ordered loc h ↔ ∀ (i j : ℕ) (b : Did), i < j → f[i]? = some none ∨ W i = true →
      2 ^ i ≤ dist loc p → f[j]? = some (some b) → W j = false → dist loc p ≤ dist loc b := by
  -- the hint of a slot, by what it held
  have hslot : ∀ (i : ℕ) (old : Option Did), f[i]? = some old → h[i]? = some
      (if W i = true ∨ (2 ^ i ≤ dist loc p ∧ old.all (dist loc p ≤ dist loc ·)) then some p
        else old) := by
    intro i old hold
    have hi := (List.getElem?_eq_some_iff.mp hold).1
    rw [hh, hold, Option.map_some, joinSlot_eq (by omega)]
    by_cases hwi : W i = true
    · rw [if_pos hwi, if_pos (Or.inl hwi)]
    · simp only [hwi, Bool.false_eq_true, if_false, false_or]
  constructor
  · intro ho i j b hij hi hreach hb hwj
    by_contra hlt
    have hj := hslot j _ hb
    rw [if_neg (by simp [hwj, hlt])] at hj
    have hi' : h[i]? = some (some p) := by
      rcases hi with hi | hi
      · rw [hslot i _ hi, if_pos (Or.inr ⟨hreach, rfl⟩)]
      · have hin : i < f.length := by
          have := (List.getElem?_eq_some_iff.mp hb).1
          omega
        rw [hslot i _ (List.getElem?_eq_getElem hin), if_pos (Or.inl hi)]
    exact hlt (ho i j p b hij hi' hj)
  · intro hc i j a b hij ha hb
    obtain ⟨oi, hoi⟩ : ∃ o, f[i]? = some o := by
      rcases ho : f[i]? with _ | o
      · rw [hh, ho] at ha
        cases ha
      · exact ⟨o, rfl⟩
    obtain ⟨oj, hoj⟩ : ∃ o, f[j]? = some o := by
      rcases ho : f[j]? with _ | o
      · rw [hh, ho] at hb
        cases hb
      · exact ⟨o, rfl⟩
    rw [hslot i oi hoi, Option.some.injEq] at ha
    rw [hslot j oj hoj, Option.some.injEq] at hb
    have hpow : (2 : ℕ) ^ i ≤ 2 ^ j := Nat.pow_le_pow_right (by omega) hij.le
    split at ha <;> split at hb
    · rw [← Option.some.inj ha, ← Option.some.inj hb]
    · -- the lower slot took the peer, the higher kept its hint
      rename_i h1 h2
      obtain rfl := Option.some.inj ha
      subst hb
      have hwj : W j = false := by simpa using fun hw => h2 (Or.inl hw)
      have hreach : 2 ^ i ≤ dist loc p := by
        rcases h1 with h1 | h1
        · exact hfit i h1
        · exact h1.1
      rcases h1 with h1 | ⟨-, h1⟩
      · exact hc i j b hij (Or.inr h1) hreach hoj hwj
      · cases oi with
        | none => exact hc i j b hij (Or.inl hoi) hreach hoj hwj
        | some o => exact le_trans (by simpa using h1) (hf i j o b hij hoi hoj)
    · -- the higher slot took the peer, so the lower was within its reach too
      rename_i h1 h2
      obtain rfl := Option.some.inj hb
      subst ha
      have hreach : 2 ^ j ≤ dist loc p := by
        rcases h2 with h2 | h2
        · exact hfit j h2
        · exact h2.1
      by_contra hlt
      exact h1 (Or.inr ⟨by omega, by simp only [Option.all_some, decide_eq_true_eq]; omega⟩)
    · subst ha
      subst hb
      exact hf i j a b hij hoi hoj

end Writes

/-! ### Learning several peers -/

section Joins

variable {loc : Did}

/-- The hint after learning `ps`: the nearest of the old hint and the peers the slot can hold. -/
structure Nearest (loc : Did) (ps : List Did) (i : ℕ) (old new : Option Did) : Prop where
  source : new = old ∨ ∃ q ∈ ps, new = some q ∧ 2 ^ i ≤ dist loc q
  peers : ∀ q ∈ ps, 2 ^ i ≤ dist loc q → ∃ a, new = some a ∧ dist loc a ≤ dist loc q
  hint : ∀ o, old = some o → ∃ a, new = some a ∧ dist loc a ≤ dist loc o

lemma nearest_join {ps : List Did} {i : ℕ} {old mid : Option Did} (hi : i < 160)
    (h : Nearest loc ps i old mid) (p : Did) :
    Nearest loc (ps ++ [p]) i old (joinSlot loc p i mid) := by
  rw [joinSlot_eq hi]
  split
  · rename_i hc
    have hle : ∀ a, mid = some a → dist loc p ≤ dist loc a := by
      rintro a rfl
      simpa using hc.2
    refine ⟨Or.inr ⟨p, by simp, rfl, hc.1⟩, fun q hq hreach => ⟨p, rfl, ?_⟩,
      fun o ho => ⟨p, rfl, ?_⟩⟩
    · rcases List.mem_append.mp hq with hq | hq
      · obtain ⟨a, ha, hle'⟩ := h.peers q hq hreach
        exact le_trans (hle a ha) hle'
      · rw [List.mem_singleton.mp hq]
    · obtain ⟨a, ha, hle'⟩ := h.hint o ho
      exact le_trans (hle a ha) hle'
  · rename_i hc
    refine ⟨?_, fun q hq hreach => ?_, h.hint⟩
    · rcases h.source with hs | ⟨q, hq, hs⟩
      · exact Or.inl hs
      · exact Or.inr ⟨q, by simp [hq], hs⟩
    · rcases List.mem_append.mp hq with hq | hq
      · exact h.peers q hq hreach
      · rw [List.mem_singleton.mp hq] at hreach ⊢
        cases mid with
        | none => exact absurd ⟨hreach, rfl⟩ hc
        | some a =>
          refine ⟨a, rfl, ?_⟩
          by_contra hlt
          exact hc ⟨hreach, by simp only [Option.all_some, decide_eq_true_eq]; omega⟩

lemma foldl_join_nearest (ps : List Did) {f : Fingers} (hw : f.length ≤ 160) {i : ℕ}
    {old : Option Did} (hi : f[i]? = some old) :
    ∃ new, (ps.foldl (fingerJoin loc) f)[i]? = some new ∧ Nearest loc ps i old new := by
  induction ps using List.reverseRecOn with
  | nil => exact ⟨old, hi, Or.inl rfl, fun q hq => (List.not_mem_nil hq).elim,
      fun o ho => ⟨o, ho, le_refl _⟩⟩
  | append_singleton ps p ih =>
    obtain ⟨mid, hmid, hnear⟩ := ih
    have hlt := (List.getElem?_eq_some_iff.mp hi).1
    refine ⟨_, ?_, nearest_join (by omega) hnear p⟩
    rw [List.foldl_append, List.foldl_cons, List.foldl_nil, fingerJoin_getElem?, hmid]
    rfl

/-- Learning several peers, with the slots below `m` then pointing at one peer whose distance
ends the range. -/
lemma Ordered.joins_iff {f h : Fingers} (hf : Ordered loc f) (hsp : Spaced loc f)
    (hw : f.length ≤ 160) (ps : List Did) {m : ℕ} {r : Did}
    (hr : m < f.length → 0 < m → dist loc r < 2 ^ m)
    (hh : ∀ i, h[i]? = if i < m then f[i]?.map fun _ => some r
      else (ps.foldl (fingerJoin loc) f)[i]?) :
    Ordered loc h ↔ ∀ (i j : ℕ) (b : Did), m ≤ i → i < j → f[i]? = some none →
      f[j]? = some (some b) → ∀ q ∈ ps, 2 ^ i ≤ dist loc q →
        ∃ q' ∈ ps, 2 ^ i ≤ dist loc q' ∧ dist loc q' ≤ dist loc b := by
  have hjoined := fun i old => @foldl_join_nearest loc ps f hw i old
  constructor
  · intro ho i j b hmi hij hi hj q hq hreach
    obtain ⟨a, ha, hna⟩ := hjoined i none hi
    obtain ⟨c, hc, hnc⟩ := hjoined j (some b) hj
    obtain ⟨x, rfl, -⟩ := hna.peers q hq hreach
    obtain ⟨y, rfl, hyb⟩ := hnc.hint b rfl
    have hxy := ho i j x y hij (by rw [hh, if_neg (by omega), ha])
      (by rw [hh, if_neg (by omega), hc])
    rcases hna.source with hs | ⟨q', hq', hs, hreach'⟩
    · cases hs
    · obtain rfl := Option.some.inj hs
      exact ⟨x, hq', hreach', le_trans hxy hyb⟩
  · intro hc i j x y hij hx hy
    have hspj := (hsp.foldl_join ps hw).1
    by_cases hj : j < m
    · rw [hh, if_pos (by omega), Option.map_eq_some_iff] at hx
      rw [hh, if_pos hj, Option.map_eq_some_iff] at hy
      obtain ⟨-, -, hx⟩ := hx
      obtain ⟨-, -, hy⟩ := hy
      rw [← Option.some.inj hx, ← Option.some.inj hy]
    rw [hh, if_neg hj] at hy
    have hjlen : j < f.length := by
      have := (List.getElem?_eq_some_iff.mp hy).1
      rwa [foldl_join_length] at this
    by_cases hi : i < m
    · -- a slot above the proved range points past the whole range
      rw [hh, if_pos hi, Option.map_eq_some_iff] at hx
      obtain ⟨-, -, hx⟩ := hx
      obtain rfl := Option.some.inj hx
      have h1 := hr (by omega) (by omega)
      have h2 := hspj j y hy
      have h3 : (2 : ℕ) ^ m ≤ 2 ^ j := Nat.pow_le_pow_right (by omega) (by omega)
      omega
    · rw [hh, if_neg hi] at hx
      obtain ⟨a, ha, hna⟩ := hjoined i _ (List.getElem?_eq_getElem (by omega))
      obtain ⟨b, hb, hnb⟩ := hjoined j _ (List.getElem?_eq_getElem hjlen)
      obtain rfl : a = some x := Option.some.inj (ha.symm.trans hx)
      obtain rfl : b = some y := Option.some.inj (hb.symm.trans hy)
      have hpow : (2 : ℕ) ^ i ≤ 2 ^ j := Nat.pow_le_pow_right (by omega) hij.le
      rcases hnb.source with hs | ⟨q, hq, hs, hreach⟩
      · -- the higher slot kept its hint
        rcases hoi : f[i] with _ | o
        · rcases hna.source with hsx | ⟨q, hq, hsx, hreach⟩
          · rw [hoi] at hsx
            cases hsx
          · obtain ⟨q', hq', hr', hle⟩ := hc i j y (by omega) hij
              (by rw [List.getElem?_eq_getElem (by omega), hoi])
              (by rw [List.getElem?_eq_getElem hjlen, ← hs]) q hq hreach
            obtain ⟨x', hx', hle'⟩ := hna.peers q' hq' hr'
            obtain rfl := Option.some.inj hx'
            exact le_trans hle' hle
        · obtain ⟨x', hx', hle⟩ := hna.hint o hoi
          obtain rfl := Option.some.inj hx'
          refine le_trans hle (hf i j o y hij ?_ ?_)
          · rw [List.getElem?_eq_getElem (by omega), hoi]
          · rw [List.getElem?_eq_getElem hjlen, ← hs]
      · obtain rfl := Option.some.inj hs
        obtain ⟨x', hx', hle⟩ := hna.peers y hq (by omega)
        obtain rfl := Option.some.inj hx'
        exact hle

end Joins

/-! ### When a step keeps the order -/

/-- The slots a report about `x` writes: those of the validated range whose hint is no newer
than the lookup. -/
def reportWrites (s : TopologyState) (r : FingerFixRequest) (x : Did) (t i : ℕ) : Bool :=
  match s.fingerConvergence.validatedProof s.localDid s.fingers.length r x t with
  | .ok p => s.fingerConvergence.evidence.writes p i
  | .error _ => false

/-- The condition under which one event keeps the hints ordered, on the state before it.

* An admitted peer fills an empty slot, or a slot its deferred proof writes, only below hints
  that are no nearer.
* A lookup report about a remote node leaves, outside the slots it writes, no farther hint
  below them and no nearer hint above them.
* A stabilization report fills an empty slot above its proved range only with a successor no
  farther than every hint above.

Every other event keeps the order. -/
def KeepsOrder (k : ℕ) (s : TopologyState) : TopologyEvent → Prop
  | .admitPeer peer proof t => peer ≠ s.localDid →
    let W := fun i => proof.elim false (reportWrites s · peer t i)
    ∀ (i j : ℕ) (b : Did), i < j → s.fingers[i]? = some none ∨ W i = true →
      2 ^ i ≤ dist s.localDid peer → s.fingers[j]? = some (some b) → W j = false →
      dist s.localDid peer ≤ dist s.localDid b
  | .applyFinger r x t => x ≠ s.localDid →
    ∀ (i j : ℕ) (b : Did), i < s.fingers.length → reportWrites s r x t i = true →
      reportWrites s r x t j = false → s.fingers[j]? = some (some b) →
      (i < j → dist s.localDid x ≤ dist s.localDid b) ∧
        (j < i → dist s.localDid b ≤ dist s.localDid x)
  | .stabilize r id ss p => s.isProcessingStabilizationReport r id = true →
    let next := stabilizeSuccessors s.localDid s.successors ss p k
    ∀ (i j : ℕ) (b : Did), (stabilizedSuccessorProofEnd s r next p).elim 0 (· + 1) ≤ i → i < j →
      s.fingers[i]? = some none → s.fingers[j]? = some (some b) →
      ∀ q ∈ next, 2 ^ i ≤ dist s.localDid q →
        ∃ q' ∈ next, 2 ^ i ≤ dist s.localDid q' ∧ dist s.localDid q' ≤ dist s.localDid b
  | _ => True

structure OrderInv (s : TopologyState) : Prop where
  width : s.fingers.length ≤ 160
  fits : AttemptFits s
  spaced : Spaced s.localDid s.fingers
  evidence : s.fingerConvergence.evidence.slots.length = s.fingers.length

lemma OrderInv.step {s : TopologyState} (h : OrderInv s) (e : TopologyEvent) (k : ℕ) :
    OrderInv (step s e k).state where
  width := by rw [step_fingers, stepEvent_fingers_length]; exact h.width
  fits := by
    unfold AttemptFits
    rw [step_fingerConvergence, step_localDid, step_fingers, stepEvent_fingers_length]
    exact stepEvent_fits h.fits e k
  spaced := by
    rw [step_localDid, step_fingers]
    exact stepEvent_spaced h.width h.fits h.spaced e k
  evidence := by
    rw [step_fingerConvergence, step_fingers, stepEvent_fingers_length, stepEvent_width]
    exact h.evidence

section Step

variable {s : TopologyState}

lemma applyFingerResult_getElem? (h : AttemptFits s) (r : FingerFixRequest) (x : Did) (t i : ℕ) :
    (applyFingerResult s r x t).fingers[i]? = s.fingers[i]?.map fun old =>
      if reportWrites s r x t i then (if x = s.localDid then none else some x) else old := by
  simp only [applyFingerResult, FingerConvergenceState.applyResult]
  rcases hv : s.fingerConvergence.validatedProof s.localDid s.fingers.length r x t with e | p
  · have hW : reportWrites s r x t i = false := by rw [reportWrites, hv]
    simp [hW]
  · have hW : reportWrites s r x t i = s.fingerConvergence.evidence.writes p i := by
      rw [reportWrites, hv]
    dsimp only
    rw [FingerEvidence.apply_getElem?, (validatedProof_ok h hv).2.1, hW]

lemma reportWrites_reach (h : AttemptFits s) {r : FingerFixRequest} {x : Did} {t i : ℕ}
    (hx : x ≠ s.localDid) (hw : reportWrites s r x t i = true) : 2 ^ i ≤ dist s.localDid x := by
  unfold reportWrites at hw
  split at hw
  · rename_i p hv
    obtain ⟨-, hs, hfit⟩ := validatedProof_ok h hv
    have hcov := FingerEvidence.writes_covers hw
    have hspec := ((fingerProofEnd_spec hfit).2.2 (by rw [hs]; exact hx)).1
    rw [hs] at hspec
    exact le_trans (Nat.pow_le_pow_right (by omega) hcov.2) hspec
  · cases hw

lemma stepAdmit_getElem? (h : OrderInv s) {peer : Did} (hp : peer ≠ s.localDid)
    (proof : Option FingerFixRequest) (t i : ℕ) :
    (fingerJoin s.localDid (proof.elim s (applyFingerResult s · peer t)).fingers peer)[i]? =
      s.fingers[i]?.map fun old =>
        if proof.elim false (reportWrites s · peer t i) then some peer
        else joinSlot s.localDid peer i old := by
  rw [fingerJoin_getElem?]
  cases proof with
  | none => simp
  | some r =>
    simp only [Option.elim_some]
    rw [applyFingerResult_getElem? h.fits, Option.map_map]
    rcases hold : s.fingers[i]? with _ | old
    · rfl
    have hi := (List.getElem?_eq_some_iff.mp hold).1
    have hw := h.width
    by_cases hwi : reportWrites s r peer t i = true
    · simp [hwi, hp, joinSlot_eq (show i < 160 by omega)]
    · simp [hwi]

lemma stabilizeHints_getElem? (k : ℕ) (r : Did) (ss : List Did) (p : Option Did) (i : ℕ) :
    (stabilizeHints s k r ss p)[i]? =
      let next := stabilizeSuccessors s.localDid s.successors ss p k
      if i < (stabilizedSuccessorProofEnd s r next p).elim 0 (· + 1) then
        s.fingers[i]?.map fun _ => some r
      else (next.foldl (fingerJoin s.localDid) s.fingers)[i]? := by
  unfold stabilizeHints
  dsimp only
  rcases stabilizedSuccessorProofEnd s r
    (stabilizeSuccessors s.localDid s.successors ss p k) p with _ | stop
  · simp
  · have hlen := foldl_join_length s.localDid
      (stabilizeSuccessors s.localDid s.successors ss p k) s.fingers
    dsimp only
    rw [List.getElem?_mapIdx]
    change _ = if i < stop + 1 then _ else _
    by_cases hi : i < stop + 1
    · simp only [if_pos hi]
      rcases Nat.lt_or_ge i s.fingers.length with hlt | hge
      · rw [List.getElem?_eq_getElem (by omega), List.getElem?_eq_getElem hlt]
        rfl
      · rw [List.getElem?_eq_none (by omega), List.getElem?_eq_none hge]
    · simp only [if_neg hi, Option.map_id']

/-- The proved range of a stabilization report ends at the distance of its reporter. -/
lemma stabilizedSuccessorProofEnd_spec {r : Did} {next : List Did} {p : Option Did} {stop : ℕ}
    (h : stabilizedSuccessorProofEnd s r next p = some stop) (hlt : stop + 1 < s.fingers.length) :
    dist s.localDid r < 2 ^ (stop + 1) := by
  unfold stabilizedSuccessorProofEnd at h
  split at h
  · cases h
  rename_i hc
  simp only [not_or, not_not] at hc
  have hne : r ≠ s.localDid := by
    have := List.find?_some hc.1
    simpa using this
  exact ((fingerProofEnd_spec h).2.2 hne).2 hlt

/-- **One step**: from ordered hints the next hints are ordered exactly when the condition holds. -/
lemma ordered_step_iff (h : OrderInv s) (ho : Ordered s.localDid s.fingers) (e : TopologyEvent)
    (k : ℕ) : Ordered s.localDid (step s e k).state.fingers ↔ KeepsOrder k s e := by
  rw [step_fingers, stepEvent_fingers]
  cases e with
  | admitPeer peer proof t =>
    dsimp only [KeepsOrder]
    by_cases hp : peer = s.localDid
    · simp only [hp, if_true, ne_eq, not_true_eq_false, false_implies, iff_true]
      exact ho
    · rw [if_neg hp]
      refine (ho.admit_iff h.width (W := fun i => proof.elim false (reportWrites s · peer t i)) ?_
        (stepAdmit_getElem? h hp proof t)).trans (by simp [hp])
      intro i hw
      cases proof with
      | none => cases hw
      | some r => exact reportWrites_reach h.fits hp hw
  | remove peer r => exact iff_of_true (ho.remove peer) trivial
  | stabilize r id ss p =>
    dsimp only [KeepsOrder]
    by_cases hc : s.isProcessingStabilizationReport r id = true
    · rw [if_pos hc]
      refine (ho.joins_iff h.spaced h.width (stabilizeSuccessors s.localDid s.successors ss p k)
        ?_ (stabilizeHints_getElem? k r ss p)).trans (by simp [hc])
      intro hlt hpos
      rcases hs : stabilizedSuccessorProofEnd s r
        (stabilizeSuccessors s.localDid s.successors ss p k) p with _ | stop
      · rw [hs] at hpos
        cases hpos
      · rw [hs] at hlt
        exact stabilizedSuccessorProofEnd_spec hs hlt
    · rw [if_neg hc]
      exact iff_of_true ho fun h => absurd h hc
  | advanceFingerConvergence t id =>
    dsimp only
    rw [stepFixFinger_fingers_eq h.width h.evidence]
    exact iff_of_true ho trivial
  | applyFinger r x t =>
    dsimp only [KeepsOrder]
    have hget := applyFingerResult_getElem? h.fits r x t
    by_cases hx : x = s.localDid
    · simp only [hx, if_true] at hget
      refine iff_of_true ?_ fun hne => absurd hx hne
      rw [hx]
      exact ho.clear hget
    · simp only [hx, if_false] at hget
      exact (ho.write_iff hget).trans (by simp [hx])
  | _ => exact iff_of_true ho trivial

end Step

/-! ### Runs -/

lemma orderInv_empty (loc : Did) (succs : List Did) (pred : Option Did) {width : ℕ}
    (hw : width ≤ 160) : OrderInv (.new loc succs pred (List.replicate width none)) where
  width := by simpa [TopologyState.new] using hw
  fits := FingerAttempt.fits_idle _ _
  spaced := fun i p h => by simp [TopologyState.new, List.getElem?_replicate] at h
  evidence := by simp [TopologyState.new, FingerConvergenceState.new]

lemma orderInv_stateAt {s₀ : TopologyState} (h : OrderInv s₀) (k : ℕ) (es : List TopologyEvent)
    (n : ℕ) : OrderInv (stateAt k s₀ es n) ∧ (stateAt k s₀ es n).localDid = s₀.localDid := by
  induction n with
  | zero => exact ⟨h, rfl⟩
  | succ n ih =>
    rcases he : es[n]? with _ | e
    · rw [stateAt_succ_of_none he]
      exact ih
    · rw [stateAt_succ he]
      exact ⟨ih.1.step e k, by rw [step_localDid, ih.2]⟩

/-- **Finger order along a run.** From an empty table no wider than the ring, the hints are
ordered in every state of a run exactly when every step meets the condition. -/
theorem finger_order_run (k : ℕ) (loc : Did) (succs : List Did) (pred : Option Did) (width : ℕ)
    (hw : width ≤ 160) (es : List TopologyEvent) :
    let s := stateAt k (.new loc succs pred (List.replicate width none)) es
    (∀ n, Ordered loc (s n).fingers) ↔ ∀ n e, es[n]? = some e → KeepsOrder k (s n) e := by
  intro s
  have hinv := orderInv_stateAt (orderInv_empty loc succs pred hw) k es
  have hloc : ∀ n, (s n).localDid = loc := fun n => (hinv n).2
  constructor
  · intro hall n e he
    have h0 : Ordered (s n).localDid (s n).fingers := by rw [hloc]; exact hall n
    refine (ordered_step_iff (hinv n).1 h0 e k).mp ?_
    have hs : s (n + 1) = (step (s n) e k).state := stateAt_succ he
    rw [← hs, hloc]
    exact hall (n + 1)
  · intro hall n
    induction n with
    | zero =>
      intro i j a b _ ha
      have : (List.replicate width (none : Option Did))[i]? = some (some a) := ha
      simp [List.getElem?_replicate] at this
    | succ n ih =>
      rcases he : es[n]? with _ | e
      · have hs : s (n + 1) = s n := stateAt_succ_of_none he
        rw [hs]
        exact ih
      · have hs : s (n + 1) = (step (s n) e k).state := stateAt_succ he
        have h0 : Ordered (s n).localDid (s n).fingers := by rw [hloc]; exact ih
        have := (ordered_step_iff (hinv n).1 h0 e k).mpr (hall n e he)
        rw [hs]
        rwa [hloc] at this

/-- The order is lost when a report about slot 1 lands below a hint that a removal moved up: the
hints become `8, 2, 8, 8`. -/
theorem finger_order_broken :
    ¬ Ordered 0 (run 3 (.new 0 [] none (List.replicate 4 none))
      [.admitPeer 1 none 0, .admitPeer 8 none 0, .advanceFingerConvergence 0 7, .remove 1 .preserve,
        .applyFinger ⟨1, 7⟩ 2 1]).fingers := by
  intro h
  exact absurd (h 0 1 8 2 (by decide) (by decide) (by decide)) (by decide)

/-- Two joins in order of distance meet the condition. -/
theorem finger_order_run_joins :
    let es : List TopologyEvent := [.admitPeer 1 none 0, .admitPeer 8 none 0]
    ∀ n, Ordered 0 (stateAt 3 (.new 0 [] none (List.replicate 4 none)) es n).fingers := by
  intro es
  refine (finger_order_run 3 0 [] none 4 (by decide) es).mpr ?_
  intro n e he
  match n, he with
  | 0, he =>
    obtain rfl := Option.some.inj he
    intro _ W i j b _ _ _ hj
    have hf : [none, none, none, none][j]? = some (some b) := hj
    rcases j with _ | _ | _ | _ | j <;> simp at hf
  | 1, he =>
    obtain rfl := Option.some.inj he
    intro _ W i j b _ _ _ hj
    have hf : (stateAt 3 (.new 0 [] none (List.replicate 4 none)) es 1).fingers =
        [some 1, none, none, none] := by decide
    rw [hf] at hj
    rcases j with _ | _ | _ | _ | j <;> simp at hj
    omega

end Rings
