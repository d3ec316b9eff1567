import Mathlib.Data.Fintype.Prod
import Mathlib.Tactic

/-!
The story of one peer, told through a queue: it is admitted and retired in turn, and something is
dropped only while it is admitted. An announcement that retires an admission nobody read withdraws
it, and a drop that waits to be read absorbs another. The reader then never reads a fact out of
turn, and knows the last word once nothing is left to read.
-/

namespace Rings.PeerStory

inductive Fact
  | admitted
  | retired
  | dropped
deriving DecidableEq

instance : Fintype Fact := ⟨{.admitted, .retired, .dropped}, fun f => by cases f <;> decide⟩

/-- What the facts read so far say: whether the peer is admitted, and whether something was dropped
since its last admission. -/
structure View where
  admitted : Bool
  dropped : Bool
deriving DecidableEq, Fintype

def View.start : View := ⟨false, false⟩

def View.read : View → Fact → View
  | _, .admitted => ⟨true, false⟩
  | _, .retired => ⟨false, false⟩
  | v, .dropped => ⟨v.admitted, true⟩

/-- The fact may come next. -/
def View.allows (v : View) : Fact → Bool
  | .admitted => !v.admitted
  | .retired => v.admitted
  | .dropped => v.admitted

/-- Every fact of `w` comes in turn. -/
def View.tells : View → List Fact → Bool
  | _, [] => true
  | v, f :: w => v.allows f && (v.read f).tells w

theorem View.tells_append (v : View) (w more : List Fact) :
    v.tells (w ++ more) = (v.tells w && (w.foldl View.read v).tells more) := by
  induction w generalizing v with
  | nil => rfl
  | cons f w ih =>
    rw [List.cons_append, View.tells, View.tells, ih, List.foldl_cons, Bool.and_assoc]

/-- Admissions and retirements come in turn. -/
theorem View.tells_alternates {v : View} {w : List Fact} (h : v.tells w) :
    (w.filter (· ≠ .dropped)).IsChain (· ≠ ·) ∧
      (w.filter (· ≠ .dropped)).head? ≠ some (if v.admitted then .admitted else .retired) := by
  induction w generalizing v with
  | nil => exact ⟨List.IsChain.nil, by simp⟩
  | cons f w ih =>
    rw [View.tells, Bool.and_eq_true] at h
    obtain ⟨hallowed, htells⟩ := h
    obtain ⟨hchain, hhead⟩ := ih htells
    cases f with
    | dropped => exact ⟨hchain, hhead⟩
    | admitted =>
      have hv : v.admitted = false := by simpa [View.allows] using hallowed
      simp only [View.read, if_true] at hhead
      refine ⟨List.isChain_cons.2 ⟨fun f hf heq => hhead ?_, hchain⟩, by simp [hv]⟩
      rw [← heq] at hf
      exact hf
    | retired =>
      have hv : v.admitted = true := hallowed
      simp only [View.read] at hhead
      refine ⟨List.isChain_cons.2 ⟨fun f hf heq => hhead ?_, hchain⟩, by simp [hv]⟩
      rw [← heq] at hf
      exact hf

/-- The facts before the last admission in `w`. -/
def beforeAdmission (w : List Fact) : List Fact :=
  (w.reverse.dropWhile (· ≠ .admitted)).tail.reverse

def announce (w : List Fact) : Fact → List Fact
  | .admitted => w ++ [.admitted]
  | .retired =>
    if (w.filter (· ≠ .dropped)).getLast? = some .admitted then beforeAdmission w
    else w ++ [.retired]
  | .dropped => if w.getLast? = some .dropped then w else w ++ [.dropped]

/-- The most that waits. -/
def mostWaiting : List Fact := [.dropped, .retired, .admitted, .dropped]

def waiting : List (List Fact) :=
  [[], [.dropped], [.admitted], [.admitted, .dropped], [.retired], [.retired, .admitted],
    [.retired, .admitted, .dropped], [.dropped, .retired], [.dropped, .retired, .admitted],
    mostWaiting]

/-- What waits makes up for the difference between what was read and what was announced. -/
structure Consistent (told : View) (w : List Fact) (announced : View) : Prop where
  waits : w ∈ waiting
  inTurn : told.tells w
  admitted : (w.foldl View.read told).admitted = announced.admitted
  dropped : announced.admitted ∧ announced.dropped → (w.foldl View.read told).dropped

theorem consistent_iff {told : View} {w : List Fact} {announced : View} :
    Consistent told w announced ↔ w ∈ waiting ∧ told.tells w ∧
      (w.foldl View.read told).admitted = announced.admitted ∧
      (announced.admitted ∧ announced.dropped → (w.foldl View.read told).dropped) :=
  ⟨fun h => ⟨h.waits, h.inTurn, h.admitted, h.dropped⟩,
    fun h => ⟨h.1, h.2.1, h.2.2.1, h.2.2.2⟩⟩

theorem consistent_start : Consistent .start [] .start :=
  consistent_iff.2 (by decide)

theorem Consistent.sublist {told announced : View} {w : List Fact}
    (h : Consistent told w announced) : w.Sublist mostWaiting := by
  have : ∀ w ∈ waiting, w.Sublist mostWaiting := by decide
  exact this w h.waits

/-- A fact is announced in its turn. -/
theorem Consistent.announce {told announced : View} {w : List Fact}
    (h : Consistent told w announced) {f : Fact} (hf : announced.allows f) :
    Consistent told (announce w f) (announced.read f) := by
  have hall : ∀ w ∈ waiting, ∀ (told announced : View) (f : Fact), told.tells w →
      (w.foldl View.read told).admitted = announced.admitted →
      (announced.admitted ∧ announced.dropped → (w.foldl View.read told).dropped) →
      announced.allows f →
      PeerStory.announce w f ∈ waiting ∧ told.tells (PeerStory.announce w f) ∧
        ((PeerStory.announce w f).foldl View.read told).admitted = (announced.read f).admitted ∧
        ((announced.read f).admitted ∧ (announced.read f).dropped →
          ((PeerStory.announce w f).foldl View.read told).dropped) := by
    decide
  exact consistent_iff.2 (hall w h.waits told announced f h.inTurn h.admitted h.dropped hf)

/-- The first fact that waits is read. -/
theorem Consistent.take {told announced : View} {f : Fact} {w : List Fact}
    (h : Consistent told (f :: w) announced) :
    told.allows f ∧ Consistent (told.read f) w announced := by
  have htail : ∀ l ∈ waiting, l.tail ∈ waiting := by decide
  have hturn := h.inTurn
  simp only [View.tells, Bool.and_eq_true] at hturn
  exact ⟨hturn.1, htail _ h.waits, hturn.2, h.admitted, h.dropped⟩

end Rings.PeerStory
