import Rings.Did
import Mathlib.Data.Prod.Lex
import Mathlib.Tactic

/-!
Replay windows of transaction streams.

A receiver keeps for each stream the highest sequence it accepted and the digests of the last
32. A sequence above the window slides it, one inside it fills its slot once, and one below it is
refused. What a window has seen it never permits again.
-/

namespace Rings

/-- Traffic classes. -/
inductive MessageCategory where
  | dhtControl
  | storage
  | e2e
  | application
deriving DecidableEq

namespace MessageCategory

def index : MessageCategory → ℕ
  | dhtControl => 0
  | storage => 1
  | e2e => 2
  | application => 3

/-- The traffic classes. -/
def count : ℕ := 4

lemma index_injective : Function.Injective index := by
  intro a b h
  cases a <;> cases b <;> first | rfl | cases h

end MessageCategory

/-- A destination-scoped transaction stream of one traffic class. -/
@[ext]
structure StreamKey where
  networkId : ℕ
  originAccount : Did
  destination : Did
  category : MessageCategory

namespace StreamKey

def rank (k : StreamKey) : ℕ ×ₗ ℕ ×ₗ ℕ ×ₗ ℕ :=
  toLex (k.networkId, toLex (k.originAccount.toNat, toLex (k.destination.toNat, k.category.index)))

lemma rank_injective : Function.Injective rank := by
  intro a b h
  simp only [rank, EmbeddingLike.apply_eq_iff_eq, Prod.mk.injEq, BitVec.toNat_inj] at h
  obtain ⟨hn, ho, hd, hc⟩ := h
  exact StreamKey.ext hn ho hd (MessageCategory.index_injective hc)

instance linearOrder : LinearOrder StreamKey := LinearOrder.lift' rank rank_injective

end StreamKey

/-- Digest of one exact signed transaction. -/
abbrev TransactionDigest := BitVec 256

/-- Out-of-order sequence slots retained for one stream. -/
def transactionReplayWindow : ℕ := 32

def reorderWindow : ℕ := 32

def transactionReplayBacktrack : ℕ := 31

/-- The accepted sequences of one stream: slot 31 is sequence `high`, and the slots before it
descend from it. -/
@[ext]
structure SequenceState where
  high : ℕ
  accepted : Fin 32 → Option TransactionDigest
deriving DecidableEq

inductive SequenceVerdict where
  | first
  | advance
  | late
  | replay
  | fork (accepted incoming : TransactionDigest)
  | stale (retainedMin : ℕ)
deriving DecidableEq

/-- Whether the observation may cross the application dispatch boundary. -/
def SequenceVerdict.permitsDispatch : SequenceVerdict → Bool
  | first | advance | late => true
  | replay | fork _ _ | stale _ => false

namespace SequenceState

def first (sequence : ℕ) (digest : TransactionDigest) : SequenceState :=
  ⟨sequence, Function.update (fun _ => none) 31 (some digest)⟩

/-- Lowest sequence whose digest may still be retained. -/
def retainedMin (w : SequenceState) : ℕ := w.high - transactionReplayBacktrack

-- at `high = u64::MAX` the source takes the whole window for `high + 1`, and so does `min`
def isValid (w : SequenceState) : Bool :=
  let unusedSlots := transactionReplayWindow - min (w.high + 1) transactionReplayWindow
  decide (∀ i : Fin 32, i.val < unusedSlots → w.accepted i = none) && (w.accepted 31).isSome

/-- Slides the window up to `sequence`: the slots rotate, and those rotated in are cleared. -/
def advance (w : SequenceState) (sequence : ℕ) (digest : TransactionDigest) : SequenceState :=
  let gap := sequence - w.high
  let accepted : Fin 32 → Option TransactionDigest :=
    if gap ≥ reorderWindow then fun _ => none
    else fun i =>
      if i.val < transactionReplayWindow - gap then w.accepted (i + Fin.ofNat 32 gap) else none
  ⟨sequence, Function.update accepted 31 (some digest)⟩

def observeRetained (w : SequenceState) (sequence : ℕ) (digest : TransactionDigest) :
    SequenceState × SequenceVerdict :=
  let distance := w.high - sequence
  if h : distance + 1 ≤ 32 then
    let index : Fin 32 := ⟨32 - (distance + 1), by omega⟩
    match w.accepted index with
    | none => ({ w with accepted := Function.update w.accepted index (some digest) }, .late)
    | some accepted => if accepted = digest then (w, .replay) else (w, .fork accepted digest)
  else (w, .stale w.retainedMin)

end SequenceState

/-- The replay-window transition; a refused observation leaves the window as it is. -/
def observe (state : Option SequenceState) (sequence : ℕ) (digest : TransactionDigest) :
    SequenceState × SequenceVerdict :=
  match state with
  | none => (.first sequence digest, .first)
  | some w =>
    if sequence > w.high then (w.advance sequence digest, .advance)
    else if sequence < w.retainedMin then (w, .stale w.retainedMin)
    else w.observeRetained sequence digest

/-! ### What a window has seen -/

namespace SequenceState

variable {w : SequenceState} {sequence q : ℕ} {digest d : TransactionDigest}

def slot (w : SequenceState) (sequence : ℕ) : Fin 32 := ⟨31 - (w.high - sequence), by omega⟩

/-- The window has slid past the sequence, or retains this digest for it. -/
def Seen (w : SequenceState) (sequence : ℕ) (digest : TransactionDigest) : Prop :=
  sequence < w.retainedMin ∨ sequence ≤ w.high ∧ w.accepted (w.slot sequence) = some digest

instance decidableSeen : Decidable (w.Seen sequence digest) :=
  inferInstanceAs (Decidable (_ ∨ _))

lemma first_seen : (first sequence digest).Seen sequence digest := by
  refine Or.inr ⟨le_rfl, ?_⟩
  simp [first, slot]

lemma advance_seen_new (w : SequenceState) (sequence : ℕ) (digest : TransactionDigest) :
    (w.advance sequence digest).Seen sequence digest := by
  refine Or.inr ⟨le_rfl, ?_⟩
  simp [advance, slot]

/-- Sliding keeps the digest of every sequence that stays inside. -/
lemma Seen.advance (h : w.Seen sequence digest) (hq : w.high < q) :
    (w.advance q d).Seen sequence digest := by
  by_cases hin : sequence < (w.advance q d).retainedMin
  · exact Or.inl hin
  have hmin : q - 31 ≤ sequence := Nat.le_of_not_lt hin
  rcases h with hlow | ⟨hle, hslot⟩
  · -- below the old window, and so below the new one
    refine absurd hlow ?_
    simp only [retainedMin, transactionReplayBacktrack]
    omega
  · refine Or.inr ⟨hle.trans hq.le, ?_⟩
    have hgap : ¬ (q - w.high ≥ reorderWindow) := by
      simp only [reorderWindow]
      omega
    have hne : (w.advance q d).slot sequence ≠ 31 := by
      rw [Ne, Fin.ext_iff]
      simp only [slot, SequenceState.advance]
      omega
    have hlt : ((w.advance q d).slot sequence).val < transactionReplayWindow - (q - w.high) := by
      simp only [slot, SequenceState.advance, transactionReplayWindow]
      omega
    have hmove : (w.advance q d).slot sequence + Fin.ofNat 32 (q - w.high) = w.slot sequence := by
      rw [Fin.ext_iff, Fin.val_add]
      simp only [slot, SequenceState.advance, Fin.val_ofNat]
      omega
    have hkept : (w.advance q d).accepted ((w.advance q d).slot sequence) =
        w.accepted (w.slot sequence) := by
      rw [← hmove]
      simp only [SequenceState.advance, if_neg hgap] at hne hlt ⊢
      rw [Function.update_of_ne hne, if_pos hlt]
    rw [hkept, hslot]

lemma slot_eq (h : w.high - sequence + 1 ≤ 32) :
    (⟨32 - (w.high - sequence + 1), by omega⟩ : Fin 32) = w.slot sequence := by
  rw [Fin.ext_iff]
  simp only [slot]
  omega

/-- A window keeps what it has seen. -/
lemma Seen.observe (h : w.Seen sequence digest) (q : ℕ) (d : TransactionDigest) :
    (Rings.observe (some w) q d).1.Seen sequence digest := by
  simp only [Rings.observe]
  split
  · rename_i hq
    exact h.advance hq
  split
  · exact h
  simp only [observeRetained]
  split
  · rename_i hdist
    split
    · rename_i hnone
      rw [slot_eq hdist] at hnone ⊢
      refine h.imp_right fun ⟨hle, hslot⟩ => ⟨hle, ?_⟩
      have hne : w.slot sequence ≠ w.slot q := by
        intro heq
        rw [heq, hnone] at hslot
        cases hslot
      exact (Function.update_of_ne hne _ _).trans hslot
    · split <;> exact h
  · exact h

/-- What is permitted is seen from then on. -/
lemma observe_seen {state : Option SequenceState}
    (h : (observe state sequence digest).2.permitsDispatch = true) :
    (observe state sequence digest).1.Seen sequence digest := by
  cases state with
  | none => exact first_seen
  | some w =>
    simp only [observe] at h ⊢
    split at h
    · rename_i hq
      rw [if_pos hq]
      exact advance_seen_new w sequence digest
    rename_i hq
    rw [if_neg hq]
    split at h
    · cases h
    rename_i hmin
    rw [if_neg hmin]
    simp only [observeRetained] at h ⊢
    split at h
    · rename_i hdist
      rw [dif_pos hdist]
      split at h
      · refine Or.inr ⟨Nat.le_of_not_lt hq, ?_⟩
        rw [slot_eq hdist]
        exact Function.update_self _ _ _
      · split at h <;> cases h
    · cases h

/-- What is seen, under whichever digest, is not permitted again. -/
lemma Seen.not_permits (h : w.Seen sequence digest) (d : TransactionDigest) :
    (Rings.observe (some w) sequence d).2.permitsDispatch = false := by
  simp only [Rings.observe]
  rcases h with hlow | ⟨hle, hslot⟩
  · have hq : ¬ sequence > w.high := by
      have := hlow
      simp only [retainedMin] at this
      omega
    rw [if_neg hq, if_pos hlow]
    rfl
  · rw [if_neg (Nat.not_lt.2 hle)]
    split
    · rfl
    · simp only [observeRetained]
      split
      · rename_i hdist
        rw [slot_eq hdist, hslot]
        simp only
        split <;> rfl
      · rfl

/-! ### Valid windows -/

lemma isValid_iff : w.isValid = true ↔
    (∀ i : Fin 32, i.val < 31 - w.high → w.accepted i = none) ∧ (w.accepted 31).isSome = true := by
  have hunused : transactionReplayWindow - min (w.high + 1) transactionReplayWindow =
      31 - w.high := by
    simp only [transactionReplayWindow]
    omega
  rw [isValid, Bool.and_eq_true, decide_eq_true_eq, hunused]

lemma first_valid : (first sequence digest).isValid = true := by
  rw [isValid_iff]
  refine ⟨fun i hi => ?_, rfl⟩
  have hi' : i.val < 31 - sequence := hi
  have hne : i ≠ 31 := Fin.ne_of_val_ne (by
    have : ((31 : Fin 32) : ℕ) = 31 := rfl
    omega)
  simp [first, Function.update_of_ne hne]

lemma advance_valid (h : w.isValid = true) (hq : w.high < q) : (w.advance q d).isValid = true := by
  rw [isValid_iff] at h ⊢
  refine ⟨fun i hi => ?_, by simp [advance]⟩
  have hi' : i.val < 31 - q := hi
  have hne : i ≠ 31 := Fin.ne_of_val_ne (by
    have : ((31 : Fin 32) : ℕ) = 31 := rfl
    omega)
  simp only [advance]
  rw [Function.update_of_ne hne]
  split
  · rfl
  · rename_i hgap
    simp only [reorderWindow, ge_iff_le, not_le] at hgap
    simp only
    split
    · refine h.1 _ ?_
      rw [Fin.val_add, Fin.val_ofNat]
      omega
    · rfl

lemma observe_valid {state : Option SequenceState} (h : ∀ w ∈ state, w.isValid = true) (q : ℕ)
    (d : TransactionDigest) : (observe state q d).1.isValid = true := by
  cases state with
  | none => exact first_valid
  | some w =>
    have hw := h w rfl
    simp only [observe]
    split
    · rename_i hq
      exact advance_valid hw hq
    split
    · exact hw
    rename_i hq hmin
    simp only [observeRetained]
    split
    · rename_i hdist
      split
      · rename_i hnone
        rw [slot_eq hdist] at hnone ⊢
        rw [isValid_iff] at hw ⊢
        refine ⟨fun i hi => ?_, ?_⟩
        · have hne : i ≠ w.slot q := Fin.ne_of_val_ne (by
            simp only [slot] at hi ⊢
            omega)
          exact (Function.update_of_ne hne _ _).trans (hw.1 i hi)
        · simp only [Function.update_apply]
          split
          · rfl
          · exact hw.2
      · split <;> exact hw
    · exact hw

end SequenceState

end Rings
