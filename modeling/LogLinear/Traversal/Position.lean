import LogLinear.Histogram.Percentile

/-!
Contract: the place of a traversal in a histogram, with its running totals.

Owns:
- the cell that the traversal stands on, and the bounds of that cell;
- the totals of the cells folded in so far;
- the end of the last step, from which the next one is measured.

Does not own: where steps end. A schedule decides that from the position.
-/

namespace LogLinear

/-- The place of a traversal. -/
structure Position where
  histogram : Histogram
  /-- The index of the cell. -/
  index : Nat
  /-- The least value of the cell. -/
  start : Nat
  /-- The least value of the cell after it. -/
  nextStart : Nat
  /-- The count of the cell, as read when the traversal last looked at it. -/
  count : Nat
  /-- The sum of the counts of the cells folded in. -/
  reached : Nat
  /-- The sum of the values of those cells, each value taken as the greatest of its cell. -/
  weight : Nat
  /-- Whether the cell is still to be folded in. -/
  fresh : Bool
  /-- The value at which the last step ended. -/
  stepValue : Nat
  /-- What `reached` was at the end of the last step. -/
  stepReached : Nat

namespace Position

/-- Before the first cell is folded in. Cell 0 is one unit wide in every layout. -/
def origin (histogram : Histogram) : Position where
  histogram := histogram
  index := 0
  start := 0
  nextStart := 1 <<< histogram.layout.unitLog
  count := 0
  reached := 0
  weight := 0
  fresh := true
  stepValue := 0
  stepReached := 0

/-- The value reported for the cell, which is the greatest one in it. -/
def value (position : Position) : Nat := position.histogram.layout.ceiling position.start

/-- The number of values that the traversal will have reached at its end. -/
def total (position : Position) : Nat := position.histogram.total

/-- Whether some recorded value has not been reached yet. -/
def isOutstanding (position : Position) : Bool := position.reached < position.total

/-- The percentage of the recorded values that has been reached. -/
def percent (position : Position) : Float :=
  Histogram.percentOf position.reached position.total

/-- The sum of the values of the cell, each taken as the greatest one in it. -/
def cellWeight (position : Position) (count : Nat) : Nat :=
  if count = 0 then 0 else count * position.value

/-- The position with the count of its cell read, and folded in if that has not been done. -/
@[inline]
def visited (position : Position) : Position :=
  let count := position.histogram.count position.index
  if position.fresh then
    { position with
      count := count
      reached := position.reached + count
      weight := position.weight + position.cellWeight count
      fresh := false }
  else { position with count := count }

/-- The position after a step that has just ended there at a value. -/
@[inline]
def settled (position : Position) (value : Nat) : Position :=
  { position with
    stepValue := value
    stepReached := position.reached }

/-- The position on the next cell. -/
@[inline]
def forward (position : Position) : Position :=
  { position with
    index := position.index + 1
    start := position.histogram.start (position.index + 1)
    nextStart := position.histogram.start (position.index + 2)
    fresh := true }

theorem cellWeight_eq (position : Position) (count : Nat) :
    position.cellWeight count = count * position.value := by
  unfold cellWeight
  split <;> simp_all

end Position

end LogLinear
