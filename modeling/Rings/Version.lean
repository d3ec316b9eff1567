import Rings.Did
import Mathlib.Data.Prod.Lex

/-!
Hybrid logical versions and element dots.

A version is the pair of a millisecond and a counter followed by its issuer, ordered
lexicographically in field order. The issue step returns the version at the clock when it
already exceeds the floor, and otherwise steps the counter at the floor's millisecond.
-/

namespace Rings

/-- The errors of entry operations. -/
inductive EntryError where
  | entryVersionAheadOfClock
  | entryDotIndexOutOfBounds (index : ℕ)
  | entryKindNotEqual
  | entryDidNotEqual
  | entryNotOverwritable
  | entryNotLive
  | entryLifetimeExceedsMax
  | entryPayloadExceedsMax
  | entryTombstonesExceedMax (count bound : ℕ)
  | removalCapacityExhausted
  | codecSerialize
  | lockPoisoned
deriving DecidableEq

@[ext]
structure EntryVersion where
  logicalTimeMs : ℕ
  counter : ℕ
  actor : Did
  operation : Did
deriving DecidableEq

namespace EntryVersion

/-- What orders the versions of one millisecond: the counter, then the issuer. -/
def rank (v : EntryVersion) : ℕ ×ₗ ℕ ×ₗ ℕ :=
  toLex (v.counter, toLex (v.actor.toNat, v.operation.toNat))

def key (v : EntryVersion) : ℕ ×ₗ ℕ ×ₗ ℕ ×ₗ ℕ := toLex (v.logicalTimeMs, v.rank)

lemma key_injective : Function.Injective key := by
  intro v w h
  simp only [key, rank, EmbeddingLike.apply_eq_iff_eq, Prod.mk.injEq, BitVec.toNat_inj] at h
  obtain ⟨hl, hc, ha, ho⟩ := h
  exact EntryVersion.ext hl hc ha ho

instance : LinearOrder EntryVersion := LinearOrder.lift' key key_injective

variable {v w f : EntryVersion}

lemma le_iff : v ≤ w ↔ v.logicalTimeMs < w.logicalTimeMs ∨
    v.logicalTimeMs = w.logicalTimeMs ∧ v.rank ≤ w.rank :=
  Prod.Lex.toLex_le_toLex

lemma lt_iff : v < w ↔ v.logicalTimeMs < w.logicalTimeMs ∨
    v.logicalTimeMs = w.logicalTimeMs ∧ v.rank < w.rank :=
  Prod.Lex.toLex_lt_toLex

lemma logicalTimeMs_le (h : v ≤ w) : v.logicalTimeMs ≤ w.logicalTimeMs := by
  rcases le_iff.1 h with h | h <;> omega

lemma rank_lt_of_counter_lt (h : v.counter < w.counter) : v.rank < w.rank :=
  Prod.Lex.toLex_lt_toLex.2 (Or.inl h)

/-- `EntryVersion::new`. -/
def new (logicalTimeMs : ℕ) (actor operation : Did) : EntryVersion :=
  ⟨logicalTimeMs, 0, actor, operation⟩

/-- `Default`: every field zero. -/
def zero : EntryVersion := ⟨0, 0, 0, 0⟩

/-- The issue step after `floor`. -/
def after (v : EntryVersion) (floor : Option EntryVersion) : Except EntryError EntryVersion :=
  match floor with
  | none => .ok v
  | some floor =>
    if floor < v then .ok v
    else
      match checkedAdd u32Max floor.counter 1 with
      | none => .error .entryVersionAheadOfClock
      | some counter =>
        .ok { logicalTimeMs := floor.logicalTimeMs, counter, actor := v.actor,
              operation := v.operation }

/-- What the issue step returns: the version at the clock, or the floor's next counter. -/
lemma after_cases {floor : Option EntryVersion} (h : v.after floor = .ok w) :
    (w = v ∧ ∀ f, floor = some f → f < v) ∨
      ∃ f, floor = some f ∧ v ≤ f ∧
        w = ⟨f.logicalTimeMs, f.counter + 1, v.actor, v.operation⟩ := by
  rcases floor with _ | f
  · cases h
    exact Or.inl ⟨rfl, fun f hf => by cases hf⟩
  · simp only [after] at h
    split at h
    · rename_i hlt
      cases h
      exact Or.inl ⟨rfl, fun g hg => Option.some.inj hg ▸ hlt⟩
    · rename_i hge
      split at h
      · cases h
      · rename_i c hc
        cases h
        refine Or.inr ⟨f, rfl, not_lt.1 hge, ?_⟩
        rw [checkedAdd] at hc
        split at hc
        · rw [← Option.some.inj hc]
        · cases hc

/-- The issued version is strictly after the floor. -/
lemma lt_after {floor : Option EntryVersion} (h : v.after floor = .ok w)
    (hf : floor = some f) : f < w := by
  rcases after_cases h with ⟨rfl, hlt⟩ | ⟨g, hg, -, rfl⟩
  · exact hlt f hf
  · obtain rfl : g = f := Option.some.inj (hg.symm.trans hf)
    exact lt_iff.2 (Or.inr ⟨rfl, rank_lt_of_counter_lt (Nat.lt_succ_self _)⟩)

/-- Strict ascent never moves the millisecond past the clock and the floor. -/
lemma after_logicalTimeMs_le {floor : Option EntryVersion} {t : ℕ} (h : v.after floor = .ok w)
    (hv : v.logicalTimeMs ≤ t) (hf : ∀ f, floor = some f → f.logicalTimeMs ≤ t) :
    w.logicalTimeMs ≤ t := by
  rcases after_cases h with ⟨rfl, -⟩ | ⟨f, hfl, -, rfl⟩
  · exact hv
  · exact hf f hfl

end EntryVersion

@[ext]
structure EntryDot where
  version : EntryVersion
  index : ℕ
deriving DecidableEq

namespace EntryDot

def key (d : EntryDot) : EntryVersion ×ₗ ℕ := toLex (d.version, d.index)

lemma key_injective : Function.Injective key := by
  intro d e h
  simp only [key, EmbeddingLike.apply_eq_iff_eq, Prod.mk.injEq] at h
  exact EntryDot.ext h.1 h.2

instance : LinearOrder EntryDot := LinearOrder.lift' key key_injective

variable {d e : EntryDot}

lemma le_iff : d ≤ e ↔ d.version < e.version ∨ d.version = e.version ∧ d.index ≤ e.index :=
  Prod.Lex.toLex_le_toLex

lemma version_le (h : d ≤ e) : d.version ≤ e.version := by
  rcases le_iff.1 h with h | h
  · exact h.le
  · exact h.1.le

lemma logicalTimeMs_le (h : d ≤ e) : d.version.logicalTimeMs ≤ e.version.logicalTimeMs :=
  EntryVersion.logicalTimeMs_le (version_le h)

/-- `EntryDot::for_index`: the position must fit 32 bits. -/
def forIndex (version : EntryVersion) (index : ℕ) : Except EntryError EntryDot :=
  if index ≤ u32Max then .ok ⟨version, index⟩ else .error (.entryDotIndexOutOfBounds index)

end EntryDot

end Rings
