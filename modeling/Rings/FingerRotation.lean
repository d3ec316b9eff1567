import Rings.FingerBits
import Rings.FingerOrder
import Mathlib.Data.List.TakeWhile

/-!
The rotation of failing finger lookups.

While every attempt fails, the cursor moves past what the attempt named: the hint run of its
slot, or the range its report proved. Selection takes the next unverified slot in cyclic order,
so on the way from one selection of a slot to the next every other unverified slot is either
reached or jumped over, and what is jumped over lies in the run or in the range of an attempt
made on the way.
-/

namespace Rings

/-! ### Runs of equal hints -/

/-- All the hints from `x` to `y` are equal: the two slots lie in one maximal run. -/
def SameRun (f : Fingers) (x y : ℕ) : Prop :=
  ∀ z, min x y ≤ z → z ≤ max x y → f[z]? = f[x]?

section SameRun

variable {f : Fingers} {a b x y z : ℕ}

lemma SameRun.refl (f : Fingers) (x : ℕ) : SameRun f x x := by
  intro z h1 h2
  rw [show z = x by omega]

lemma SameRun.symm (h : SameRun f x y) : SameRun f y x := by
  intro z h1 h2
  rw [h z (by omega) (by omega), h y (by omega) (by omega)]

lemma SameRun.trans (h : SameRun f x y) (h' : SameRun f y z) : SameRun f x z := by
  intro w h1 h2
  by_cases hw : min x y ≤ w ∧ w ≤ max x y
  · exact h w hw.1 hw.2
  · rw [h' w (by omega) (by omega), h y (by omega) (by omega)]

lemma SameRun.between (ha : SameRun f x a) (hb : SameRun f x b) (haz : a ≤ z) (hzb : z ≤ b) :
    SameRun f z x := by
  intro w h1 h2
  rcases Nat.le_total x z with hle | hle
  · rw [hb w (by omega) (by omega), hb z (by omega) (by omega)]
  · rw [ha w (by omega) (by omega), ha z (by omega) (by omega)]

lemma hintRunEnd_spec (hx : x < f.length) : x ≤ FingerEvidence.hintRunEnd f x ∧
    FingerEvidence.hintRunEnd f x < f.length ∧
    ∀ y, x ≤ y → y ≤ FingerEvidence.hintRunEnd f x → SameRun f x y := by
  unfold FingerEvidence.hintRunEnd
  rw [List.getElem?_eq_getElem hx]
  dsimp only
  set run := (f.drop x).takeWhile (· = f[x]) with hrun
  have hpos : 0 < run.length := by
    rw [hrun, List.drop_eq_getElem_cons hx, List.takeWhile_cons_of_pos (by simp)]
    simp
  have hle : run.length ≤ f.length - x := by
    have := (List.takeWhile_prefix (fun h => decide (h = f[x])) (l := f.drop x)).length_le
    simpa using this
  refine ⟨by omega, by omega, fun y hxy hy z h1 h2 => ?_⟩
  have hz : z - x < run.length := by omega
  have hval : run[z - x] = f[x] := by
    have := List.mem_takeWhile_imp (List.getElem_mem hz)
    simpa using this
  have hget := (List.takeWhile_prefix (fun h => decide (h = f[x])) (l := f.drop x)).getElem hz
  rw [List.getElem_drop] at hget
  have hzx : x + (z - x) = z := by omega
  rw [List.getElem?_eq_getElem (by omega : z < f.length), List.getElem?_eq_getElem hx]
  simp only [hzx] at hget
  exact congrArg some (hget.symm.trans hval)

end SameRun

/-! ### The next slot -/

section Selection

variable {e : FingerEvidence} {lo hi first cursor s r : ℕ}

lemma bit_eq (h : r < e.slots.length) : e.bit r = e.slots[r].verified := by
  rw [FingerEvidence.bit, List.getElem?_eq_getElem h, Option.elim_some]

lemma firstUnverifiedIn_some (h : e.firstUnverifiedIn lo hi = some s) :
    lo ≤ s ∧ s < hi ∧ s < e.slots.length ∧ e.bit s = false ∧
      ∀ r, lo ≤ r → r < s → e.bit r = true := by
  obtain ⟨j, hj, rfl⟩ := Option.map_eq_some_iff.mp h
  obtain ⟨hlt, hval, hbefore⟩ := List.findIdx?_eq_some_iff_getElem.mp hj
  rw [List.length_drop, List.length_take] at hlt
  simp only [List.getElem_drop, List.getElem_take, Bool.not_eq_true'] at hval
  refine ⟨by omega, by omega, by omega, ?_, fun r h1 h2 => ?_⟩
  · rw [bit_eq (by omega), hval]
  · have hr := hbefore (r - lo) (by omega)
    simp only [List.getElem_drop, List.getElem_take, Bool.not_eq_true', Bool.not_eq_false,
      show lo + (r - lo) = r by omega] at hr
    rw [bit_eq (by omega), hr]

lemma firstUnverifiedIn_none (h : e.firstUnverifiedIn lo hi = none) :
    ∀ r, lo ≤ r → r < hi → r < e.slots.length → e.bit r = true := by
  intro r h1 h2 h3
  have hnone := List.findIdx?_eq_none_iff.mp (Option.map_eq_none_iff.mp h)
  have hmem : e.slots[r] ∈ (e.slots.take hi).drop lo := by
    rw [List.mem_iff_getElem]
    refine ⟨r - lo, by rw [List.length_drop, List.length_take]; omega, ?_⟩
    simp only [List.getElem_drop, List.getElem_take, show lo + (r - lo) = r by omega]
  have hv := hnone _ hmem
  rw [bit_eq h3]
  simpa using hv

/-- The next slot is the first unverified one from the cursor on, or else the first one from
the first routable slot on. -/
lemma nextUnverifiedCyclic_some (h : e.nextUnverifiedCyclic first cursor = some s) :
    first ≤ s ∧ s < e.slots.length ∧ e.bit s = false ∧
      ((max cursor first ≤ s ∧ ∀ r, max cursor first ≤ r → r < s → e.bit r = true) ∨
        (s < max cursor first ∧
          (∀ r, max cursor first ≤ r → r < e.slots.length → e.bit r = true) ∧
          ∀ r, first ≤ r → r < s → e.bit r = true)) := by
  rcases Option.or_eq_some_iff.mp h with h | ⟨hnone, h⟩
  · obtain ⟨h1, -, h3, h4, h5⟩ := firstUnverifiedIn_some h
    exact ⟨by omega, h3, h4, Or.inl ⟨h1, h5⟩⟩
  · obtain ⟨h1, h2, h3, h4, h5⟩ := firstUnverifiedIn_some h
    exact ⟨h1, h3, h4, Or.inr ⟨h2, fun r hr hlt => firstUnverifiedIn_none hnone r hr hlt hlt, h5⟩⟩

end Selection

/-! ### Turns -/

inductive ConvergenceEvent
  | beginRevalidation
  | prepareLookup (nowMs : ℕ) (requestId : Uuid)
  | deferResult (request : FingerFixRequest) (successor : Did) (nowMs : ℕ)
  | applyResult (request : FingerFixRequest) (successor : Did) (nowMs : ℕ)
  | retireResult (request : FingerFixRequest) (successor : Did) (nowMs : ℕ)
  | cancel (request : FingerFixRequest) (nowMs : ℕ)

/-- What stands during a run: the local node, the hints and the first routable slot. -/
structure RotationTable where
  loc : Did
  fingers : Fingers
  first : ℕ

namespace RotationTable

variable (t : RotationTable) (c : FingerConvergenceState)

def turn : ConvergenceEvent → FingerConvergenceState
  | .beginRevalidation => c.beginRevalidation t.fingers t.first
  | .prepareLookup nowMs id => (c.prepareLookup t.fingers t.first nowMs id).1
  | .deferResult request successor nowMs => c.deferResult t.loc t.fingers request successor nowMs
  | .applyResult request successor nowMs =>
    (c.applyResult t.loc t.fingers request successor nowMs).2
  | .retireResult request successor nowMs =>
    c.retireResult t.loc t.fingers request successor nowMs
  | .cancel request nowMs => c.cancel t.fingers request nowMs

def Fails : ConvergenceEvent → Prop
  | .applyResult request successor nowMs =>
    ∀ p, c.validatedProof t.loc t.fingers.length request successor nowMs ≠ .ok p
  | _ => True

def issued : ConvergenceEvent → Option FingerFixRequest
  | .prepareLookup nowMs id => (c.prepareLookup t.fingers t.first nowMs id).2
  | _ => none

def retired : ConvergenceEvent → Option FingerRangeProof
  | .retireResult request successor nowMs =>
    (c.validatedProof t.loc t.fingers.length request successor nowMs).toOption
  | _ => none

def failure : ConvergenceEvent → Option ℕ
  | .beginRevalidation => none
  | .prepareLookup nowMs _ =>
    if !t.fingers.isEmpty && c.attempt.isExpired nowMs then some nowMs else none
  | .cancel request nowMs => if c.attempt.request = some request then some nowMs else none
  | .deferResult request successor nowMs | .applyResult request successor nowMs =>
    match c.validatedProof t.loc t.fingers.length request successor nowMs with
    | .error rejection =>
      if c.attempt.canConsume request successor && rejection.countsAsFailure then some nowMs
      else none
    | .ok _ => none
  | .retireResult request successor nowMs =>
    match c.validatedProof t.loc t.fingers.length request successor nowMs with
    | .error rejection =>
      if c.attempt.canConsume request successor && rejection.countsAsFailure then some nowMs
      else none
    | .ok _ => some nowMs

end RotationTable

/-- The attempt was made in the present epoch and names slots of the table. -/
def FingerAttempt.Current (f : Fingers) (epoch : ℕ) : FingerAttempt → Prop
  | .idle => True
  | .awaitingReport p => p.issuedEpoch = epoch ∧ p.request.slotIndex < f.length
  | .awaitingAdmission a =>
    a.proof.request.slotIndex ≤ a.proof.endSlot ∧ a.proof.endSlot < f.length

inductive Turned (t : RotationTable) (c : FingerConvergenceState) :
    Option FingerFixRequest → Option FingerRangeProof → FingerConvergenceState → Prop
  | kept {c' : FingerConvergenceState} (evidence : c'.evidence = c.evidence)
      (request : c'.attempt.request = c.attempt.request) (cursor : c'.cursor = c.cursor)
      (current : c'.attempt.Current t.fingers c.evidence.epoch) : Turned t c none none c'
  | reopened (idle : c.attempt = .idle) : Turned t c none none
      { c with evidence := c.evidence.reopenNextRange t.fingers c.cursor }
  | selected {q : FingerFixRequest} {c' : FingerConvergenceState} (idle : c.attempt = .idle)
      (next : c.evidence.nextUnverifiedCyclic t.first c.cursor = some q.slotIndex)
      (evidence : c'.evidence = c.evidence) (attempt : ∃ expires,
        c'.attempt = .awaitingReport ⟨q, c.evidence.epoch, expires⟩)
      (cursor : c'.cursor = c.cursor) : Turned t c (some q) none c'
  | failed {q : FingerFixRequest} {c' : FingerConvergenceState}
      (owned : c.attempt.request = some q) (evidence : c'.evidence = c.evidence)
      (idle : c'.attempt = .idle)
      (cursor : c'.cursor = FingerEvidence.hintRunEnd t.fingers q.slotIndex + 1) :
      Turned t c none none c'
  | retired {p : FingerRangeProof} {c' : FingerConvergenceState}
      (owned : c.attempt.request = some p.request)
      (range : p.request.slotIndex ≤ p.endSlot ∧ p.endSlot < t.fingers.length)
      (evidence : c'.evidence = c.evidence) (idle : c'.attempt = .idle)
      (cursor : c'.cursor = p.endSlot + 1) : Turned t c none (some p) c'

section Turn

variable {t : RotationTable} {c : FingerConvergenceState} {request : FingerFixRequest}
  {successor : Did} {nowMs : ℕ}

/-- A proof made of a current report is accepted: no slot changed since the lookup was issued. -/
lemma accepts_of_current {p : FingerRangeProof} (hb : c.evidence.Bounded)
    (hlt : p.request.slotIndex < c.evidence.slots.length)
    (hle : p.request.slotIndex ≤ p.endSlot) (he : p.issuedEpoch = c.evidence.epoch) :
    c.evidence.accepts p = true := by
  unfold FingerEvidence.accepts
  rw [List.any_eq_true]
  refine ⟨c.evidence.slots[p.request.slotIndex], ?_, ?_⟩
  · have hpos : 0 < ((c.evidence.slots.drop p.request.slotIndex).take
        p.coveredSlotCount).length := by
      rw [List.length_take, List.length_drop, FingerRangeProof.coveredSlotCount, if_pos hle]
      omega
    refine List.mem_iff_getElem.mpr ⟨0, hpos, ?_⟩
    rw [List.getElem_take, List.getElem_drop]
    rfl
  · have := hb _ _ (List.getElem?_eq_getElem hlt)
    simp only [FingerSlotEvidence.admits, decide_eq_true_eq]
    omega

/-- The answer to a current attempt is a proof of its own range, or a rejection that counts. -/
lemma validatedProof_current (hb : c.evidence.Bounded)
    (hw : c.evidence.slots.length = t.fingers.length)
    (hc : c.attempt.Current t.fingers c.evidence.epoch) :
    (∃ j, c.validatedProof t.loc t.fingers.length request successor nowMs = .error j ∧
      (c.attempt.canConsume request successor = true → j.countsAsFailure = true)) ∨
    ∃ p, c.validatedProof t.loc t.fingers.length request successor nowMs = .ok p ∧
      c.attempt.request = some p.request ∧ p.request.slotIndex ≤ p.endSlot ∧
      p.endSlot < t.fingers.length := by
  rcases hv : c.validatedProof t.loc t.fingers.length request successor nowMs with j | p
  · refine Or.inl ⟨j, rfl, fun hcan => ?_⟩
    unfold FingerConvergenceState.validatedProof FingerAttempt.proofSource at hv
    rw [if_neg (not_not.2 hcan)] at hv
    by_cases hx : c.attempt.isExpired nowMs = true
    · rw [if_pos hx] at hv
      obtain rfl := Except.error.inj hv
      rfl
    rw [if_neg hx] at hv
    cases ha : c.attempt with
    | idle =>
      rw [ha] at hcan
      cases hcan
    | awaitingAdmission a =>
      rw [ha] at hv
      cases hv
    | awaitingReport pending =>
      rw [ha] at hv hcan hc
      have hreq : pending.request = request := of_decide_eq_true hcan
      simp only at hv
      split at hv
      · obtain rfl := Except.error.inj hv
        rfl
      · rename_i stop hstop
        obtain ⟨hle, hlt, -⟩ := fingerProofEnd_spec hstop
        have haccepts : c.evidence.accepts ⟨request, pending.issuedEpoch, successor, stop⟩ =
            true := accepts_of_current hb (by change request.slotIndex < _; omega) hle hc.1
        rw [if_pos haccepts] at hv
        cases hv
  · obtain ⟨hcan, hlookup, hrequest, -⟩ := FingerConvergenceState.validatedProof_lookup hv
    have howned := FingerConvergenceState.canConsume_request hcan
    refine Or.inr ⟨p, rfl, by rw [howned, hrequest], ?_⟩
    cases ha : c.attempt with
    | idle =>
      rw [ha] at hcan
      cases hcan
    | awaitingReport pending =>
      have hend := FingerConvergenceState.validatedProof_endSlot ha hv
      obtain ⟨hle, hlt, -⟩ := fingerProofEnd_spec hend
      exact ⟨by rw [hrequest]; exact hle, hlt⟩
    | awaitingAdmission a =>
      rw [ha] at hc
      have hp : p = a.proof := by
        unfold FingerConvergenceState.validatedProof FingerAttempt.proofSource at hv
        rw [if_neg (not_not.2 hcan)] at hv
        by_cases hx : c.attempt.isExpired nowMs = true
        · rw [if_pos hx] at hv
          cases hv
        · rw [if_neg hx, ha] at hv
          exact (Except.ok.inj hv).symm
      rw [hp]
      exact hc

lemma retireRejectedCurrent_turned {j : FingerReportRejection}
    (hc : c.attempt.Current t.fingers c.evidence.epoch)
    (hj : c.attempt.canConsume request successor = true → j.countsAsFailure = true) :
    Turned t c none none (c.retireRejectedCurrent t.fingers request successor j nowMs) := by
  unfold FingerConvergenceState.retireRejectedCurrent
  by_cases hcan : c.attempt.canConsume request successor = true
  · rw [if_neg (not_not.2 hcan), if_pos (hj hcan)]
    exact .failed (FingerConvergenceState.canConsume_request hcan) rfl rfl rfl
  · rw [if_pos hcan]
    exact .kept rfl rfl rfl hc

/-- **One turn** of a run in which every attempt fails. -/
lemma turn_turned (hb : c.evidence.Bounded) (hw : c.evidence.slots.length = t.fingers.length)
    (hc : c.attempt.Current t.fingers c.evidence.epoch) (e : ConvergenceEvent)
    (hf : t.Fails c e) : Turned t c (t.issued c e) (t.retired c e) (t.turn c e) := by
  cases e with
  | beginRevalidation =>
    simp only [RotationTable.turn, RotationTable.issued, RotationTable.retired,
      FingerConvergenceState.beginRevalidation]
    split
    · rename_i hidle
      rw [Bool.and_eq_true] at hidle
      refine .reopened ?_
      cases ha : c.attempt with
      | idle => rfl
      | _ => simp [ha, FingerAttempt.isIdle] at hidle
    · exact .kept rfl rfl rfl hc
  | prepareLookup nowMs id =>
    simp only [RotationTable.turn, RotationTable.issued, RotationTable.retired,
      FingerConvergenceState.prepareLookup]
    split
    · exact .kept rfl rfl rfl hc
    split
    · split
      · rename_i q hq
        exact .failed hq rfl rfl rfl
      · exact .kept rfl rfl rfl hc
    split
    · exact .kept rfl rfl rfl hc
    rename_i hready
    split
    · exact .kept rfl rfl rfl hc
    · rename_i q hq
      obtain ⟨slot, hslot, hnew⟩ := Option.bind_eq_some_iff.1 hq
      have hqs : q.slotIndex = slot := by
        unfold FingerFixRequest.new at hnew
        split at hnew
        · rw [← Option.some.inj hnew]
          rfl
        · cases hnew
      refine .selected ?_ (by rw [hqs]; exact hslot) rfl ⟨_, rfl⟩ rfl
      cases ha : c.attempt with
      | idle => rfl
      | _ => simp [ha, FingerAttempt.isIdle] at hready
  | deferResult request successor nowMs =>
    simp only [RotationTable.turn, RotationTable.issued, RotationTable.retired,
      FingerConvergenceState.deferResult]
    rcases validatedProof_current hb hw hc with ⟨j, hv, hj⟩ | ⟨p, hv, howned, hrange⟩
    · rw [hv]
      exact retireRejectedCurrent_turned hc hj
    · rw [hv]
      dsimp only
      split
      · exact .kept rfl rfl rfl hc
      · exact .kept rfl howned.symm rfl hrange
  | applyResult request successor nowMs =>
    simp only [RotationTable.turn, RotationTable.issued, RotationTable.retired,
      FingerConvergenceState.applyResult]
    rcases validatedProof_current hb hw hc with ⟨j, hv, hj⟩ | ⟨p, hv, -⟩
    · rw [hv]
      exact retireRejectedCurrent_turned hc hj
    · exact absurd hv (hf p)
  | retireResult request successor nowMs =>
    simp only [RotationTable.turn, RotationTable.issued, RotationTable.retired,
      FingerConvergenceState.retireResult]
    rcases validatedProof_current hb hw hc with ⟨j, hv, hj⟩ | ⟨p, hv, howned, hrange⟩
    · rw [hv]
      exact retireRejectedCurrent_turned hc hj
    · rw [hv]
      exact .retired howned hrange rfl rfl rfl
  | cancel request nowMs =>
    simp only [RotationTable.turn, RotationTable.issued, RotationTable.retired,
      FingerConvergenceState.cancel, FingerAttempt.clearIfOwned]
    split
    · rename_i h
      exact .failed h rfl rfl rfl
    · exact .kept rfl rfl rfl hc

end Turn

/-! ### The walk between two selections of a slot -/

/-- Where the rotation stands: past the slot of the attempt, or at the cursor. -/
def rotationPosition (c : FingerConvergenceState) : ℕ :=
  c.attempt.request.elim c.cursor (·.slotIndex + 1)

/-- In cyclic order from `p`, slot `r` comes before `i`. -/
def Ahead (i p r : ℕ) : Prop := if p ≤ i then p ≤ r ∧ r < i else p ≤ r ∨ r < i

/-- Slot `r` was reached: a slot of its run was served, or a retired report of an attempt on the
way proved it. -/
def Covered (f : Fingers) (i : ℕ) (served : ℕ → Prop) (proofs : FingerRangeProof → Prop)
    (r : ℕ) : Prop :=
  (∃ s, served s ∧ SameRun f s r) ∨
    ∃ p, proofs p ∧ p.covers r = true ∧ (p.request.slotIndex = i ∨ served p.request.slotIndex)

lemma Covered.mono {f : Fingers} {i r : ℕ} {served served' : ℕ → Prop}
    {proofs proofs' : FingerRangeProof → Prop} (h : Covered f i served proofs r)
    (hs : ∀ s, served s → served' s) (hp : ∀ p, proofs p → proofs' p) :
    Covered f i served' proofs' r := by
  rcases h with ⟨s, hs', hrun⟩ | ⟨p, hp', hcov, hreq⟩
  · exact Or.inl ⟨s, hs s hs', hrun⟩
  · exact Or.inr ⟨p, hp p hp', hcov, hreq.imp_right (hs _)⟩

/-- What holds on the way from a selection of slot `i` to the next one: every unverified routable
slot outside the run of `i` was reached or is still ahead. -/
structure Walk (t : RotationTable) (i : ℕ) (served : ℕ → Prop)
    (proofs : FingerRangeProof → Prop) (c : FingerConvergenceState) : Prop where
  bounded : c.evidence.Bounded
  width : c.evidence.slots.length = t.fingers.length
  current : c.attempt.Current t.fingers c.evidence.epoch
  cursor : c.attempt = .idle → c.cursor ≤ t.fingers.length
  owner : ∀ q, c.attempt.request = some q → q.slotIndex = i ∨ served q.slotIndex
  reached : ∀ r, t.first ≤ r → r < t.fingers.length → c.evidence.bit r = false →
    ¬ SameRun t.fingers i r →
    Covered t.fingers i served proofs r ∨ Ahead i (rotationPosition c) r

section Step

variable {t : RotationTable} {c c' : FingerConvergenceState} {i : ℕ} {served : ℕ → Prop}
  {proofs : FingerRangeProof → Prop}

lemma Ahead.advance {p r : ℕ} (h : Ahead i p r) (q : ℕ) (hle : p ≤ q) :
    (p ≤ r ∧ r < q) ∨ Ahead i q r := by
  unfold Ahead at *
  split_ifs at * <;> omega

lemma Ahead.select {e : FingerEvidence} {first cursor s r : ℕ} (h : Ahead i cursor r)
    (hs : e.nextUnverifiedCyclic first cursor = some s) (hr : first ≤ r)
    (hlt : r < e.slots.length) (hbit : e.bit r = false) :
    r = s ∨ (Ahead i (s + 1) r ∧ s ≠ i) := by
  have hnot : ∀ b : Bool, b = false → b ≠ true := by decide
  obtain ⟨hfirst, -, -, ⟨hle, hskip⟩ | ⟨hwrap, htail, hskip⟩⟩ := nextUnverifiedCyclic_some hs
  · have hrs : ¬ (max cursor first ≤ r ∧ r < s) :=
      fun hc => hnot _ hbit (hskip r hc.1 hc.2)
    unfold Ahead at *
    split_ifs at * <;> omega
  · have hrs : ¬ (first ≤ r ∧ r < s) := fun hc => hnot _ hbit (hskip r hc.1 hc.2)
    have hrt : ¬ (max cursor first ≤ r) := fun hc => hnot _ hbit (htail r hc hlt)
    unfold Ahead at *
    split_ifs at * <;> omega

lemma reopenNextRange_false {e : FingerEvidence} {f : Fingers} {cursor r : ℕ}
    (h : (e.reopenNextRange f cursor).bit r = false) : e.bit r = false ∨
      (0 < f.length ∧ cursor % f.length ≤ r ∧
        r ≤ FingerEvidence.hintRunEnd f (cursor % f.length)) := by
  unfold FingerEvidence.reopenNextRange at h
  split at h
  · exact Or.inl h
  · rename_i hlen
    by_cases hin : cursor % f.length ≤ r ∧ r < FingerEvidence.hintRunEnd f (cursor % f.length) + 1
    · exact Or.inr ⟨by omega, hin.1, by omega⟩
    · left
      simp only [FingerEvidence.bit, List.getElem?_mapIdx] at h ⊢
      rcases he : e.slots[r]? with _ | sl
      · rfl
      · rw [he] at h
        simp only [Option.map_some, Option.elim_some] at h
        rw [if_neg hin] at h
        exact h

lemma ahead_of_reopened {f : Fingers} {cursor r : ℕ} (hlen : 0 < f.length)
    (hcursor : cursor ≤ f.length) (hi : i < f.length) (hlow : cursor % f.length ≤ r)
    (hhigh : r ≤ FingerEvidence.hintRunEnd f (cursor % f.length)) (hrun : ¬ SameRun f i r) :
    Ahead i cursor r := by
  have hstart : cursor % f.length < f.length := Nat.mod_lt _ hlen
  have hspec := (hintRunEnd_spec hstart).2.2
  -- slot `i` is not between the start of the reopened run and `r`
  have hout : ¬ (cursor % f.length ≤ i ∧ i ≤ r) := by
    rintro ⟨h1, h2⟩
    have hir := (hspec i h1 (by omega)).symm
    have hrr := (hspec r hlow hhigh).symm
    refine hrun ?_
    have hsi := hspec i h1 (by omega)
    have hsr := hspec r hlow hhigh
    intro z hz1 hz2
    rw [hsr z (by omega) (by omega), hsi i (by omega) (by omega)]
  rcases Nat.lt_or_ge cursor f.length with hlt | hge
  · rw [Nat.mod_eq_of_lt hlt] at hlow hout
    unfold Ahead
    split_ifs <;> omega
  · have hz : cursor % f.length = 0 := by
      rw [show cursor = f.length by omega, Nat.mod_self]
    rw [hz] at hout
    unfold Ahead
    split_ifs <;> omega

/-- **One step of the walk.** -/
lemma Walk.step (h : Walk t i served proofs c) (hi : i < t.fingers.length)
    {sel : Option FingerFixRequest} {ret : Option FingerRangeProof} (hT : Turned t c sel ret c')
    (hsel : ∀ q, sel = some q → q.slotIndex ≠ i) :
    Walk t i (fun s => served s ∨ ∃ q, sel = some q ∧ q.slotIndex = s)
      (fun p => proofs p ∨ ret = some p) c' := by
  have hmono : ∀ r, Covered t.fingers i served proofs r → Covered t.fingers i
      (fun s => served s ∨ ∃ q, sel = some q ∧ q.slotIndex = s)
      (fun p => proofs p ∨ ret = some p) r :=
    fun r hr => hr.mono (fun _ => Or.inl) (fun _ => Or.inl)
  cases hT with
  | kept evidence request cursor current =>
    refine ⟨by rw [evidence]; exact h.bounded, by rw [evidence]; exact h.width,
      by rw [evidence]; exact current, fun ha => ?_, fun q hq => ?_, fun r h1 h2 h3 h4 => ?_⟩
    · rw [cursor]
      refine h.cursor ?_
      rw [ha] at request
      cases hc : c.attempt with
      | idle => rfl
      | _ => rw [hc] at request; cases request
    · rw [request] at hq
      exact (h.owner q hq).imp_right Or.inl
    · rw [evidence] at h3
      rw [rotationPosition, request, cursor]
      exact (h.reached r h1 h2 h3 h4).imp_left (hmono r)
  | reopened idle =>
    have hsame := c.evidence.reopenNextRange_spec t.fingers c.cursor
    refine ⟨hsame.1.bounded h.bounded, ?_, ?_, h.cursor, fun q hq => ?_, fun r h1 h2 h3 h4 => ?_⟩
    · exact (FingerEvidence.reopenNextRange_slots_length ..).trans h.width
    · rw [idle]
      trivial
    · exact (h.owner q hq).imp_right Or.inl
    · have hpos : rotationPosition
          { c with evidence := c.evidence.reopenNextRange t.fingers c.cursor } =
            rotationPosition c := rfl
      rw [hpos]
      rcases reopenNextRange_false h3 with hold | ⟨hlen, hlow, hhigh⟩
      · exact (h.reached r h1 h2 hold h4).imp_left (hmono r)
      · right
        rw [rotationPosition, idle]
        exact ahead_of_reopened hlen (h.cursor idle) hi hlow hhigh h4
  | @selected q c' idle next evidence attempt cursor =>
    obtain ⟨expires, ha⟩ := attempt
    have hbound := (nextUnverifiedCyclic_some next).2.1
    refine ⟨by rw [evidence]; exact h.bounded, by rw [evidence]; exact h.width, ?_, ?_, ?_, ?_⟩
    · rw [evidence, ha]
      exact ⟨rfl, by rw [← h.width]; exact hbound⟩
    · intro hidle
      rw [ha] at hidle
      cases hidle
    · intro q' hq'
      rw [ha] at hq'
      obtain rfl := Option.some.inj hq'
      exact Or.inr (Or.inr ⟨_, rfl, rfl⟩)
    · intro r h1 h2 h3 h4
      rw [evidence] at h3
      rcases h.reached r h1 h2 h3 h4 with hcov | hahead
      · exact Or.inl (hmono r hcov)
      · rw [rotationPosition, idle] at hahead
        rcases hahead.select next h1 (by rw [h.width]; exact h2) h3 with rfl | ⟨hnext, -⟩
        · exact Or.inl (Or.inl ⟨_, Or.inr ⟨q, rfl, rfl⟩, SameRun.refl _ _⟩)
        · right
          rw [rotationPosition, ha]
          exact hnext
  | @failed q c' owned evidence idle cursor =>
    have hq : q.slotIndex < t.fingers.length := by
      have hcur := h.current
      cases hc : c.attempt with
      | idle => rw [hc] at owned; cases owned
      | awaitingReport p =>
        rw [hc] at owned hcur
        obtain rfl := Option.some.inj owned
        exact hcur.2
      | awaitingAdmission a =>
        rw [hc] at owned hcur
        obtain rfl := Option.some.inj owned
        exact lt_of_le_of_lt hcur.1 hcur.2
    obtain ⟨hle, hlt, hrun⟩ := hintRunEnd_spec hq
    refine ⟨by rw [evidence]; exact h.bounded, by rw [evidence]; exact h.width,
      by rw [idle]; trivial, fun _ => by rw [cursor]; omega,
      fun q hq => (by rw [idle] at hq; cases hq), fun r h1 h2 h3 h4 => ?_⟩
    rw [evidence] at h3
    rcases h.reached r h1 h2 h3 h4 with hcov | hahead
    · exact Or.inl (hmono r hcov)
    · rw [rotationPosition, owned] at hahead
      have hpos : rotationPosition c' =
          FingerEvidence.hintRunEnd t.fingers q.slotIndex + 1 := by
        rw [rotationPosition, idle, ← cursor]
        rfl
      rw [hpos]
      rcases hahead.advance (FingerEvidence.hintRunEnd t.fingers q.slotIndex + 1)
        (by simp only [Option.elim_some]; omega) with ⟨hlow, hhigh⟩ | hnext
      · -- jumped over with the run of the failed slot
        left
        simp only [Option.elim_some] at hlow
        have hsame := hrun r (by omega) (by omega)
        rcases h.owner q owned with hqi | hserved
        · rw [hqi] at hsame
          exact absurd hsame h4
        · exact Or.inl ⟨q.slotIndex, Or.inl hserved, hsame⟩
      · exact Or.inr hnext
  | @retired p c' owned range evidence idle cursor =>
    refine ⟨by rw [evidence]; exact h.bounded, by rw [evidence]; exact h.width,
      by rw [idle]; trivial, fun _ => by rw [cursor]; omega,
      fun q hq => (by rw [idle] at hq; cases hq), fun r h1 h2 h3 h4 => ?_⟩
    rw [evidence] at h3
    rcases h.reached r h1 h2 h3 h4 with hcov | hahead
    · exact Or.inl (hmono r hcov)
    · rw [rotationPosition, owned] at hahead
      have hpos : rotationPosition c' = p.endSlot + 1 := by
        rw [rotationPosition, idle, ← cursor]
        rfl
      rw [hpos]
      rcases hahead.advance (p.endSlot + 1) (by simp only [Option.elim_some]; omega) with
        ⟨hlow, hhigh⟩ | hnext
      · -- jumped over with the proved range
        simp only [Option.elim_some] at hlow
        refine Or.inl (Or.inr ⟨p, Or.inr rfl, covers_iff.mpr ⟨by omega, by omega⟩, ?_⟩)
        exact (h.owner _ owned).imp_right Or.inl
      · exact Or.inr hnext

end Step

end Rings
