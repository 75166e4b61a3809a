import LogLinear.Traversal

/-!
Contract: the traversals with at most one step for each cell.

Owns:
- the traversal of every cell of the layout;
- the traversal of the cells that hold a count.

Both look at every cell up to the last one, wherever the counts end.

Does not own: the walk.
-/

namespace LogLinear

/-- The cell that the last step ended on, if there was one. -/
structure LastStop where
  index : Option Nat
deriving DecidableEq, Repr

namespace LastStop

/-- Whether a step has ended on the cell of a position. -/
def isAt (stop : LastStop) (position : Position) : Bool := stop.index = some position.index

/-- Whether a cell before the last one is at hand, or the last one without a step yet. -/
def hasMore (stop : LastStop) (position : Position) : Bool :=
  let last := position.histogram.counters.size - 1
  position.index < last || (position.index = last && !stop.isAt position)

end LastStop

namespace Schedule

/-- A step on every cell. -/
def everyCell : Schedule LastStop where
  hasMore := LastStop.hasMore
  endsStep stop position := !stop.isAt position
  afterStep _ position := ⟨some position.index⟩

/-- A step on every cell that holds a count. -/
def heldCells : Schedule LastStop where
  hasMore := LastStop.hasMore
  endsStep stop position := position.count ≠ 0 && !stop.isAt position
  afterStep _ position := ⟨some position.index⟩

end Schedule

namespace Traversal

def overEveryCell (histogram : Histogram) : Traversal LastStop :=
  ofSchedule histogram Schedule.everyCell ⟨none⟩

def overHeldCells (histogram : Histogram) : Traversal LastStop :=
  ofSchedule histogram Schedule.heldCells ⟨none⟩

end Traversal

end LogLinear
