import LogLinear.Layout

/-!
Contract: the cells of a layout, which are the ranges of values that share a counter.

Owns:
- the octave, the division and the counter index of a value;
- the least value of the cell at an index, for indices of any size;
- the bounds, the width and the middle of the cell that holds a value.

All of them are defined for every word, above the trackable range too. Bounds that leave the word
range are capped at the largest word.

Does not own: the counters.
-/

namespace LogLinear.Layout

/-- The binary logarithm of half the range of octave 0. -/
def baseLog (layout : Layout) : Nat := layout.unitLog + layout.halfLog

/-- The octave of a value: by how many powers of two it exceeds the values of octave 0. Setting the
bits of octave 0 first takes smaller values to octave 0. -/
def octave (layout : Layout) (value : Nat) : Nat :=
  (value ||| layout.baseMask).log2 - layout.baseLog

/-- The division of a value within its octave. In a later octave it is in the upper half, as
otherwise the value would be in an octave before. -/
def division (layout : Layout) (value : Nat) : Nat :=
  value >>> (layout.octave value + layout.unitLog)

/-- The index of the counter of a value. Only the values up to the highest one are certain to have
their counter in the layout. -/
def cell (layout : Layout) (value : Nat) : Nat :=
  (layout.octave value <<< layout.halfLog) + layout.division value

/-- The octave of the values at an index. -/
def octaveAt (layout : Layout) (index : Nat) : Nat := (index >>> layout.halfLog) - 1

/-- The division of the values at an index, within their octave. -/
def divisionAt (layout : Layout) (index : Nat) : Nat :=
  index - (layout.octaveAt index <<< layout.halfLog)

/-- The least value of the cell at an index. Indices whose cells lie beyond the word range give the
largest word. -/
def start (layout : Layout) (index : Nat) : Nat :=
  if layout.octaveAt index + layout.unitLog < 64 then
    Word.cap (layout.divisionAt index <<< (layout.octaveAt index + layout.unitLog))
  else Word.max

/-- The number of values in the cell of a value. -/
def width (layout : Layout) (value : Nat) : Nat :=
  1 <<< (layout.unitLog + layout.octave value)

/-- The least value of the cell of a value. -/
def floor (layout : Layout) (value : Nat) : Nat :=
  layout.division value * layout.width value

/-- The largest value of the cell of a value. -/
def ceiling (layout : Layout) (value : Nat) : Nat :=
  layout.floor value + (layout.width value - 1)

/-- The middle of the cell of a value, rounded up. -/
def middle (layout : Layout) (value : Nat) : Nat :=
  Word.cap (layout.floor value + layout.width value >>> 1)

/-- The least value above the cell of a value. -/
def next (layout : Layout) (value : Nat) : Nat :=
  Word.cap (layout.floor value + layout.width value)

/-- Two values are equivalent if they share a counter. -/
def Equivalent (layout : Layout) (left right : Nat) : Prop :=
  layout.floor left = layout.floor right

instance (layout : Layout) (left right : Nat) : Decidable (layout.Equivalent left right) := by
  unfold Equivalent
  infer_instance

end LogLinear.Layout
