import LogLinear.Word

/-!
Contract: what a histogram is asked to tell apart.

Owns:
- the range of values and the number of decimal figures asked for;
- the sizes that follow from them: the unit, the divisions of an octave, the number of octaves.

Does not own: which requirements can be met. `LogLinear.Layout` decides that.
-/

namespace LogLinear

/-- A range of values and a precision, not yet known to be possible. -/
structure Requirement where
  /-- The smallest value to be told apart from zero. -/
  lowest : Nat
  /-- The largest value to be counted. -/
  highest : Nat
  /-- The decimal figures to which values are to be told apart. -/
  figures : Nat
  lowest_le : lowest ≤ Word.max
  highest_le : highest ≤ Word.max
deriving DecidableEq, Repr

namespace Requirement

/-- A requirement of three numbers, if both values are words. -/
def of? (lowest highest figures : Nat) : Option Requirement :=
  if words : lowest ≤ Word.max ∧ highest ≤ Word.max then
    some ⟨lowest, highest, figures, words.1, words.2⟩
  else none

/-- The binary logarithm of the unit, which is the largest power of two that does not exceed the
lowest value. -/
def unitLog (requirement : Requirement) : Nat := requirement.lowest.log2

/-- The binary logarithm of half the divisions of an octave.

Values have to be told apart by single units up to `2 * 10 ^ figures`, so an octave has the least
power of two divisions that is not below that number. -/
def halfLog (requirement : Requirement) : Nat := (2 * Nat.pow 10 requirement.figures - 1).log2

/-- The bits that number the divisions of octave 0: all bits of its values but those within a
unit. -/
def baseMask (requirement : Requirement) : Nat :=
  ((1 <<< (requirement.halfLog + 1)) - 1) <<< requirement.unitLog

/-- The number of octaves that cover the range: the least positive count for which the highest
value is below `2 ^ (unitLog + halfLog + count)`. -/
def octaveCount (requirement : Requirement) : Nat :=
  max 1 (requirement.highest.log2 + 1 - (requirement.unitLog + requirement.halfLog))

end Requirement

end LogLinear
