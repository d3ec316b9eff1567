import Rings.LoopClass
import Rings.OnionReplay
import Mathlib.Algebra.Order.Floor.Div

/-!
The emission schedule of one link: the slot, the idle floor and the plan of its emitter.

Instants are microseconds on the sender's clock.
-/

namespace Rings.Onion

/-- The receiver's budget for each sender, in units. -/
def onionLinkBudgetUnits : ℕ := onionAdmissionSenderUnits

def emissionRateNumerator : ℕ := 9
def emissionRateDenominator : ℕ := 10

/-- The slot of an emission of `units` units, rounded up. -/
def slotMicros (units : ℕ) : ℕ :=
  (units * onionAdmissionWindowMs * 1000 * emissionRateDenominator) ⌈/⌉
    (emissionRateNumerator * onionLinkBudgetUnits)

def onionLinkMaxUnits : ℕ := OnionLoopClass.miB12.units

/-- How long a closed lane's clock is kept for a reopen. -/
def windowUs : ℕ := onionAdmissionWindowMs * 1000

/-- An active link stays active this long after its last real cell. -/
def onionLinkDwellUs : ℕ := onionExpiryQuantumMs * 1000

/-- The cover rate of an idle link, as the period of one unit: one second at least. -/
structure OnionIdleFloor where
  microsPerUnit : ℕ
  slow : 1000000 ≤ microsPerUnit

namespace OnionIdleFloor

def default : OnionIdleFloor := ⟨1000000, le_rfl⟩

/-- The idle slot after `units` units. -/
def slotMicros (f : OnionIdleFloor) (units : ℕ) : ℕ := units * f.microsPerUnit

end OnionIdleFloor

/-- The emission clock of one link: when its last real cell was queued, and when its last
emission started, with its units. -/
structure LinkClock where
  lastRealUs : Option ℕ
  lastStart : Option (ℕ × ℕ)
  deriving DecidableEq

def LinkClock.default : LinkClock := ⟨none, none⟩

inductive Plan
  | emit
  | waitCredit
  | waitUntil (dueUs : ℕ)
  deriving DecidableEq

/-- A real cell is queued, or one was less than the dwell ago. -/
def isActive (clock : LinkClock) (queued : Bool) (nowUs : ℕ) : Bool :=
  queued || clock.lastRealUs.any fun lastRealUs => nowUs < lastRealUs + onionLinkDwellUs

def plan (clock : LinkClock) (queued credited : Bool) (floor : OnionIdleFloor) (nowUs : ℕ) : Plan :=
  if !credited then .waitCredit
  else
    match clock.lastStart with
    | none => .emit
    | some (startUs, units) =>
      let slotUs :=
        if isActive clock queued nowUs then slotMicros units else floor.slotMicros units
      if nowUs ≥ startUs + slotUs then .emit else .waitUntil (startUs + slotUs)

/-! ### Slots -/

lemma slotMicros_eq (units : ℕ) : slotMicros units = (units * 1500000000) ⌈/⌉ 147456 := by
  rw [slotMicros, Nat.mul_assoc, Nat.mul_assoc]
  rfl

lemma windowUs_eq : windowUs = 150000000 := rfl

lemma le_mul_ceilDiv {a : ℕ} (h : 0 < a) (b : ℕ) : b ≤ a * (b ⌈/⌉ a) := le_smul_ceilDiv h

/-- A slot is long enough for its units at nine tenths of the budget. -/
lemma units_mul_le_slotMicros (units : ℕ) :
    units * windowUs * emissionRateDenominator ≤
      emissionRateNumerator * onionLinkBudgetUnits * slotMicros units := by
  have hceil := le_mul_ceilDiv (a := 147456) (by omega) (units * 1500000000)
  rw [← slotMicros_eq] at hceil
  rw [windowUs_eq, emissionRateDenominator, emissionRateNumerator, onionLinkBudgetUnits,
    onionAdmissionSenderUnits]
  omega

lemma slotMicros_le_idle (f : OnionIdleFloor) (units : ℕ) : slotMicros units ≤ f.slotMicros units := by
  have hslot : slotMicros units ≤ units * 1000000 := by
    rw [slotMicros_eq, ceilDiv_le_iff_le_mul (by decide)]
    omega
  exact hslot.trans (Nat.mul_le_mul_left units f.slow)

/-- The slot of a cell is shorter than the window a closed lane's clock is kept for. -/
lemma slotMicros_le_window {units : ℕ} (h : units ≤ 768) : slotMicros units ≤ windowUs := by
  rw [slotMicros_eq, ceilDiv_le_iff_le_mul (by decide)]
  rw [windowUs_eq]
  omega

lemma plan_emit {clock : LinkClock} {queued credited : Bool} {floor : OnionIdleFloor}
    {nowUs startUs units : ℕ} (h : plan clock queued credited floor nowUs = .emit)
    (hlast : clock.lastStart = some (startUs, units)) : startUs + slotMicros units ≤ nowUs := by
  rw [plan] at h
  split at h
  · cases h
  rw [hlast] at h
  have hdue : startUs + (if isActive clock queued nowUs then slotMicros units
      else floor.slotMicros units) ≤ nowUs := by
    by_contra hearly
    rw [← ge_iff_le] at hearly
    simp only [if_neg hearly, reduceCtorEq] at h
  have hidle := slotMicros_le_idle floor units
  split at hdue <;> omega

end Rings.Onion
