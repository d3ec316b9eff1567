import Rings.Did

/-!
Loop classes: the six lengths of an onion cell, and the admission units a cell costs.
-/

namespace Rings.Onion

/-- The class of a loop: every cell of the loop has its length. -/
inductive OnionLoopClass
  | kiB16 | kiB64 | kiB256 | miB1 | miB4 | miB12
  deriving DecidableEq

namespace OnionLoopClass

def default : OnionLoopClass := .kiB16

def cellBytes : OnionLoopClass → ℕ
  | .kiB16 => 16 * 1024
  | .kiB64 => 64 * 1024
  | .kiB256 => 256 * 1024
  | .miB1 => 1024 * 1024
  | .miB4 => 4 * 1024 * 1024
  | .miB12 => 12 * 1024 * 1024

/-- The admission units one cell costs its receiver. -/
def units (c : OnionLoopClass) : ℕ :=
  saturatingAdd u32Max 1 ((c.cellBytes / default.cellBytes - 1) % 2 ^ 32)

lemma units_le (c : OnionLoopClass) : c.units ≤ 768 := by cases c <;> decide

end OnionLoopClass

end Rings.Onion
