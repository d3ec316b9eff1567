import Rings.ReplayWindow

/-!
What a replay window tells apart, over every run of observations.

Within the window a sequence is refused exactly when it was accepted before, as a replay when its
digest is the accepted one and as a fork otherwise; below the window every sequence is stale.
-/

namespace Rings

namespace SequenceState

variable {w : SequenceState} {sequence q : ℕ} {digest d : TransactionDigest}

/-- What the window holds for a sequence after it slid up to `q`. -/
lemma advance_accepted (hq : w.high < q) (hmin : (w.advance q d).retainedMin ≤ sequence)
    (hle : sequence ≤ q) :
    (w.advance q d).accepted ((w.advance q d).slot sequence) =
      if sequence = q then some d
      else if sequence ≤ w.high then w.accepted (w.slot sequence) else none := by
  have hmin' : q - 31 ≤ sequence := hmin
  by_cases heq : sequence = q
  · subst heq
    simp [advance, slot]
  rw [if_neg heq]
  have hne : (w.advance q d).slot sequence ≠ 31 := by
    rw [Ne, Fin.ext_iff]
    simp only [slot, SequenceState.advance]
    omega
  by_cases hgap : q - w.high ≥ reorderWindow
  · -- the window slid past everything it held
    have hcleared : (w.advance q d).accepted ((w.advance q d).slot sequence) = none := by
      simp only [SequenceState.advance, if_pos hgap] at hne ⊢
      rw [Function.update_of_ne hne]
    have hnew : ¬ sequence ≤ w.high := by
      simp only [reorderWindow] at hgap
      omega
    rw [hcleared, if_neg hnew]
  · have hslid : (w.advance q d).accepted ((w.advance q d).slot sequence) =
        if ((w.advance q d).slot sequence).val < transactionReplayWindow - (q - w.high) then
          w.accepted ((w.advance q d).slot sequence + Fin.ofNat 32 (q - w.high)) else none := by
      simp only [SequenceState.advance, if_neg hgap] at hne ⊢
      rw [Function.update_of_ne hne]
    rw [hslid]
    simp only [reorderWindow] at hgap
    by_cases hold : sequence ≤ w.high
    · have hlt : ((w.advance q d).slot sequence).val < transactionReplayWindow - (q - w.high) := by
        simp only [slot, SequenceState.advance, transactionReplayWindow]
        omega
      have hmove : (w.advance q d).slot sequence + Fin.ofNat 32 (q - w.high) = w.slot sequence := by
        rw [Fin.ext_iff, Fin.val_add]
        simp only [slot, SequenceState.advance, Fin.val_ofNat]
        omega
      rw [if_pos hlt, if_pos hold, hmove]
    · have hge : ¬ ((w.advance q d).slot sequence).val <
          transactionReplayWindow - (q - w.high) := by
        simp only [slot, SequenceState.advance, transactionReplayWindow]
        omega
      rw [if_neg hge, if_neg hold]

lemma slot_inj {s t : ℕ} (hs : w.retainedMin ≤ s) (hs' : s ≤ w.high) (ht : w.retainedMin ≤ t)
    (ht' : t ≤ w.high) (h : w.slot s = w.slot t) : s = t := by
  simp only [retainedMin, transactionReplayBacktrack] at hs ht
  rw [Fin.ext_iff] at h
  simp only [slot] at h
  omega

lemma observeRetained_eq (hmin : w.retainedMin ≤ sequence) (hle : sequence ≤ w.high)
    (digest : TransactionDigest) :
    w.observeRetained sequence digest =
      match w.accepted (w.slot sequence) with
      | none =>
        ({ w with accepted := Function.update w.accepted (w.slot sequence) (some digest) }, .late)
      | some accepted => if accepted = digest then (w, .replay) else (w, .fork accepted digest) := by
  have hdist : w.high - sequence + 1 ≤ 32 := by
    simp only [retainedMin, transactionReplayBacktrack] at hmin
    omega
  unfold observeRetained
  cases hacc : w.accepted (w.slot sequence) with
  | none => simp only [dif_pos hdist, slot_eq hdist, hacc]
  | some accepted => simp only [dif_pos hdist, slot_eq hdist, hacc]

/-- The accepted pairs are those the window retains or has slid past. -/
structure Exact (w : SequenceState) (accepted : List (ℕ × TransactionDigest)) : Prop where
  retained : ∀ s d, w.retainedMin ≤ s →
    ((s, d) ∈ accepted ↔ s ≤ w.high ∧ w.accepted (w.slot s) = some d)
  below : ∀ p ∈ accepted, p.1 ≤ w.high
  once : (accepted.map Prod.fst).Nodup

variable {accepted : List (ℕ × TransactionDigest)}

lemma exact_first : (first sequence digest).Exact [(sequence, digest)] where
  retained s d hs := by
    simp only [List.mem_singleton, Prod.mk.injEq, first]
    constructor
    · rintro ⟨rfl, rfl⟩
      simp [slot]
    · rintro ⟨hle, hslot⟩
      have hle' : s ≤ sequence := hle
      have hmin : sequence - 31 ≤ s := hs
      by_cases heq : s = sequence
      · subst heq
        simpa [slot, eq_comm] using hslot
      · have hne : (first sequence digest).slot s ≠ 31 := by
          rw [Ne, Fin.ext_iff]
          simp only [slot, first]
          omega
        change Function.update _ _ _ ((first sequence digest).slot s) = _ at hslot
        rw [Function.update_of_ne hne] at hslot
        cases hslot
  below p hp := by
    rw [List.mem_singleton.1 hp]
    exact le_rfl
  once := by simp

lemma Exact.advance (h : w.Exact accepted) (hq : w.high < q) :
    (w.advance q d).Exact ((q, d) :: accepted) where
  retained s e hs := by
    have hhigh : (w.advance q d).high = q := rfl
    rw [hhigh, List.mem_cons]
    by_cases hle : s ≤ q
    · rw [advance_accepted hq hs hle]
      by_cases heq : s = q
      · subst heq
        have hnew : (s, e) ∉ accepted := fun hmem => by
          have := h.below _ hmem
          omega
        simp [hnew, eq_comm]
      · rw [if_neg heq]
        by_cases hold : s ≤ w.high
        · have hmin : w.retainedMin ≤ s := by
            have hs' : q - 31 ≤ s := hs
            simp only [retainedMin, transactionReplayBacktrack]
            omega
          simp [heq, hold, hle, h.retained s e hmin]
        · have hnew : (s, e) ∉ accepted := fun hmem => hold (h.below _ hmem)
          simp [heq, hold, hnew]
    · have hnew : (s, e) ∉ accepted := fun hmem => by
        have := h.below _ hmem
        omega
      have heq : s ≠ q := by omega
      simp [heq, hle, hnew]
  below p hp := by
    rcases List.mem_cons.1 hp with rfl | hp
    · exact le_rfl
    · exact (h.below p hp).trans hq.le
  once := by
    rw [List.map_cons, List.nodup_cons]
    refine ⟨fun hmem => ?_, h.once⟩
    obtain ⟨p, hp, heq⟩ := List.mem_map.1 hmem
    have := h.below p hp
    omega

lemma Exact.late (h : w.Exact accepted) (hmin : w.retainedMin ≤ q) (hle : q ≤ w.high)
    (hnone : w.accepted (w.slot q) = none) :
    ({ w with accepted := Function.update w.accepted (w.slot q) (some d) } : SequenceState).Exact
      ((q, d) :: accepted) where
  retained s e hs := by
    have hs' : w.retainedMin ≤ s := hs
    rw [List.mem_cons]
    by_cases heq : s = q
    · subst heq
      have hnew : (s, e) ∉ accepted := by
        rw [h.retained s e hmin, hnone]
        rintro ⟨-, hslot⟩
        cases hslot
      have hslot : Function.update w.accepted (w.slot s) (some d) (w.slot s) = some d :=
        Function.update_self _ _ _
      change _ ↔ s ≤ w.high ∧ Function.update w.accepted (w.slot s) (some d) (w.slot s) = some e
      rw [hslot]
      simp [hnew, hle, eq_comm]
    · change _ ↔ s ≤ w.high ∧ Function.update w.accepted (w.slot q) (some d) (w.slot s) = some e
      by_cases hsle : s ≤ w.high
      · have hne : w.slot s ≠ w.slot q := fun hslot => heq (slot_inj hs' hsle hmin hle hslot)
        rw [Function.update_of_ne hne, h.retained s e hs']
        simp [heq]
      · have hnew : (s, e) ∉ accepted := fun hmem => hsle (h.below _ hmem)
        simp [heq, hsle, hnew]
  below p hp := by
    rcases List.mem_cons.1 hp with rfl | hp
    · exact hle
    · exact h.below p hp
  once := by
    rw [List.map_cons, List.nodup_cons]
    refine ⟨fun hmem => ?_, h.once⟩
    obtain ⟨⟨s, e⟩, hp, heq⟩ := List.mem_map.1 hmem
    have hs : s = q := heq
    subst hs
    have hslot := ((h.retained s e hmin).1 hp).2
    rw [hnone] at hslot
    cases hslot

end SequenceState

/-! ### Runs -/

def observeStep (run : Option SequenceState × List (ℕ × TransactionDigest))
    (observation : ℕ × TransactionDigest) : Option SequenceState × List (ℕ × TransactionDigest) :=
  let (w, verdict) := observe run.1 observation.1 observation.2
  (some w, if verdict.permitsDispatch then observation :: run.2 else run.2)

def observeAll (observations : List (ℕ × TransactionDigest)) :
    Option SequenceState × List (ℕ × TransactionDigest) :=
  observations.foldl observeStep (none, [])

/-- The state of a run: nothing accepted yet, or a valid window that holds what was. -/
def RunExact : Option SequenceState → List (ℕ × TransactionDigest) → Prop
  | none, accepted => accepted = []
  | some w, accepted => w.isValid = true ∧ w.Exact accepted

open SequenceState

/-- The laws of one observation against what was accepted before it. -/
structure ObserveLaws (state : Option SequenceState) (accepted : List (ℕ × TransactionDigest))
    (sequence : ℕ) (digest : TransactionDigest) : Prop where
  /-- A sequence accepted before is not permitted again. -/
  once : (observe state sequence digest).2.permitsDispatch = true →
    ∀ d, (sequence, d) ∉ accepted
  unchanged : (observe state sequence digest).2.permitsDispatch = false →
    state = some (observe state sequence digest).1
  valid : (observe state sequence digest).1.isValid = true
  stale : ∀ w ∈ state, sequence < w.retainedMin →
    (observe state sequence digest).2 = .stale w.retainedMin
  refused : ∀ w ∈ state, w.retainedMin ≤ sequence →
    (((observe state sequence digest).2 = .replay ∨
        ∃ a i, (observe state sequence digest).2 = .fork a i) ↔
      ∃ d, (sequence, d) ∈ accepted)
  replay : ∀ w ∈ state, w.retainedMin ≤ sequence →
    ((observe state sequence digest).2 = .replay ↔ (sequence, digest) ∈ accepted)
  fork : ∀ a i, (observe state sequence digest).2 = .fork a i →
    (sequence, a) ∈ accepted ∧ i = digest ∧ a ≠ digest

/-- The laws of an observation a window retains the sequence of. -/
lemma observeLaws_retained {w : SequenceState} {accepted : List (ℕ × TransactionDigest)}
    (hvalid : w.isValid = true) (h : w.Exact accepted) {sequence : ℕ}
    (hmin : w.retainedMin ≤ sequence) (hle : sequence ≤ w.high) (digest : TransactionDigest) :
    ObserveLaws (some w) accepted sequence digest := by
  have hobserve : observe (some w) sequence digest = w.observeRetained sequence digest := by
    simp only [observe]
    rw [if_neg (by omega), if_neg (by omega)]
  have hslot : ∀ d, (sequence, d) ∈ accepted ↔ w.accepted (w.slot sequence) = some d := by
    intro d
    rw [h.retained sequence d hmin]
    exact and_iff_right hle
  have hvalid' : (observe (some w) sequence digest).1.isValid = true :=
    observe_valid (by simpa using hvalid) sequence digest
  have heq := observeRetained_eq hmin hle digest
  rw [← hobserve] at heq
  cases ha : w.accepted (w.slot sequence) with
  | none =>
    rw [ha] at heq
    simp only [] at heq
    refine ⟨?_, ?_, hvalid', ?_, ?_, ?_, ?_⟩
    · intro _ d
      rw [hslot, ha]
      simp
    · simp [heq, SequenceVerdict.permitsDispatch]
    · intro w' hw' hlow
      cases hw'
      omega
    · simp [heq, hslot, ha]
    · simp [heq, hslot, ha]
    · simp [heq]
  | some a =>
    rw [ha] at heq
    simp only [] at heq
    by_cases had : a = digest
    · rw [if_pos had] at heq
      refine ⟨?_, ?_, hvalid', ?_, ?_, ?_, ?_⟩
      · simp [heq, SequenceVerdict.permitsDispatch]
      · simp [heq]
      · intro w' hw' hlow
        cases hw'
        omega
      · simp [heq, hslot, ha]
      · simp [heq, hslot, ha, had]
      · simp [heq]
    · rw [if_neg had] at heq
      refine ⟨?_, ?_, hvalid', ?_, ?_, ?_, ?_⟩
      · simp [heq, SequenceVerdict.permitsDispatch]
      · simp [heq]
      · intro w' hw' hlow
        cases hw'
        omega
      · simp [heq, hslot, ha]
      · simp [heq, hslot, ha, had]
      · rintro a' i hfork
        rw [heq] at hfork
        cases hfork
        exact ⟨(hslot a).2 ha, rfl, had⟩

lemma RunExact.observeLaws {state : Option SequenceState}
    {accepted : List (ℕ × TransactionDigest)} (h : RunExact state accepted) (sequence : ℕ)
    (digest : TransactionDigest) : ObserveLaws state accepted sequence digest := by
  cases state with
  | none =>
    have haccepted : accepted = [] := h
    subst haccepted
    refine ⟨by simp, ?_, first_valid, by simp, by simp, by simp, ?_⟩
    · intro hpermits
      cases hpermits
    · intro a i hfork
      cases hfork
  | some w =>
    obtain ⟨hvalid, hexact⟩ := h
    have hvalid' : (observe (some w) sequence digest).1.isValid = true :=
      observe_valid (by simpa using hvalid) sequence digest
    rcases lt_or_ge w.high sequence with hq | hle
    · -- above the window: nothing was accepted at the sequence
      have hobserve : observe (some w) sequence digest = (w.advance sequence digest, .advance) := by
        simp only [observe]
        rw [if_pos hq]
      have hnew : ∀ d, (sequence, d) ∉ accepted := fun d hmem => by
        have := hexact.below _ hmem
        omega
      refine ⟨fun _ d => hnew d, ?_, hvalid', ?_, ?_, ?_, ?_⟩
      · simp [hobserve, SequenceVerdict.permitsDispatch]
      · intro w' hw' hlow
        cases hw'
        simp only [retainedMin] at hlow
        omega
      · simp [hobserve, hnew]
      · simp [hobserve, hnew]
      · simp [hobserve]
    · rcases lt_or_ge sequence w.retainedMin with hlow | hmin
      · have hobserve : observe (some w) sequence digest = (w, .stale w.retainedMin) := by
          simp only [observe]
          rw [if_neg (by omega), if_pos hlow]
        refine ⟨?_, ?_, hvalid', ?_, ?_, ?_, ?_⟩
        · simp [hobserve, SequenceVerdict.permitsDispatch]
        · simp [hobserve]
        · intro w' hw' _
          cases hw'
          rw [hobserve]
        · intro w' hw' hmin'
          cases hw'
          omega
        · intro w' hw' hmin'
          cases hw'
          omega
        · simp [hobserve]
      · exact observeLaws_retained hvalid hexact hmin hle digest

lemma observeStep_accepted (run : Option SequenceState × List (ℕ × TransactionDigest))
    (observation : ℕ × TransactionDigest) :
    (observeStep run observation).2 =
      if (observe run.1 observation.1 observation.2).2.permitsDispatch then observation :: run.2
      else run.2 := rfl

/-- One observation keeps the window and the accepted pairs in step. -/
lemma RunExact.step {run : Option SequenceState × List (ℕ × TransactionDigest)}
    (h : RunExact run.1 run.2) (observation : ℕ × TransactionDigest) :
    RunExact (observeStep run observation).1 (observeStep run observation).2 := by
  obtain ⟨sequence, digest⟩ := observation
  have hlaws := h.observeLaws sequence digest
  refine ⟨hlaws.valid, ?_⟩
  rcases run with ⟨_ | w, accepted⟩
  · have haccepted : accepted = [] := h
    subst haccepted
    exact exact_first
  · obtain ⟨hvalid, hexact⟩ := h
    change (observe (some w) sequence digest).1.Exact _
    rw [observeStep_accepted]
    cases hpermits : (observe (some w) sequence digest).2.permitsDispatch with
    | false =>
      have hsame : some w = some (observe (some w) sequence digest).1 := hlaws.unchanged hpermits
      rw [if_neg Bool.false_ne_true, ← Option.some.inj hsame]
      exact hexact
    | true =>
      rw [if_pos rfl]
      rcases lt_or_ge w.high sequence with hq | hle
      · have hobserve : (observe (some w) sequence digest).1 = w.advance sequence digest := by
          simp only [observe]
          rw [if_pos hq]
        rw [hobserve]
        exact hexact.advance hq
      · have hmin : w.retainedMin ≤ sequence := by
          by_contra hlow
          rw [hlaws.stale w rfl (by omega)] at hpermits
          cases hpermits
        have hobserve : observe (some w) sequence digest = w.observeRetained sequence digest := by
          simp only [observe]
          rw [if_neg (by omega), if_neg (by omega)]
        rw [hobserve, observeRetained_eq hmin hle] at hpermits ⊢
        cases ha : w.accepted (w.slot sequence) with
        | none => exact hexact.late hmin hle ha
        | some a =>
          rw [ha] at hpermits
          simp only [] at hpermits
          split at hpermits <;> cases hpermits

lemma runExact_observeAll (observations : List (ℕ × TransactionDigest)) :
    RunExact (observeAll observations).1 (observeAll observations).2 := by
  have hfold : ∀ run : Option SequenceState × List (ℕ × TransactionDigest),
      RunExact run.1 run.2 → RunExact (observations.foldl observeStep run).1
        (observations.foldl observeStep run).2 := by
    induction observations with
    | nil => exact fun run h => h
    | cons observation observations ih => exact fun run h => ih _ (h.step observation)
  exact hfold (none, []) rfl

/-- Over every run of observations from no state, no sequence is permitted twice, and the next
observation obeys the laws against what was accepted before it. -/
theorem observe_exact (observations : List (ℕ × TransactionDigest)) (sequence : ℕ)
    (digest : TransactionDigest) :
    ((observeAll observations).2.map Prod.fst).Nodup ∧
      (∀ w ∈ (observeAll observations).1, w.isValid = true) ∧
      ObserveLaws (observeAll observations).1 (observeAll observations).2 sequence digest := by
  have hrun := runExact_observeAll observations
  refine ⟨?_, ?_, hrun.observeLaws sequence digest⟩
  · cases hstate : (observeAll observations).1 with
    | none =>
      rw [hstate] at hrun
      have haccepted : (observeAll observations).2 = [] := hrun
      simp [haccepted]
    | some w =>
      rw [hstate] at hrun
      exact hrun.2.once
  · intro w hw
    rw [Option.mem_def.1 hw] at hrun
    exact hrun.1

end Rings
