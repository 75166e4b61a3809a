import LogLinear.Traversal

/-!
Contract: the traversal along percentile ticks, which get closer together towards 100.

The distance of two ticks is half of what is left up to 100 at the first one, divided by the number of
ticks to a half. It is found anew at each tick. After the last recorded value one more step is taken,
at exactly 100.

Owns:
- the tick after a given one;
- the schedule of steps at ticks, and its closing step.

Does not own: the logarithm and the power. The distance of two ticks is computed through them, and
a schedule is given the ones to use.
-/

namespace LogLinear

/-- The functions through which the distance of ticks is computed. -/
structure Elementary where
  /-- The natural logarithm. -/
  ln : Float → Float
  power : Float → Float → Float

/-- The functions that the machine has. -/
def Elementary.machine : Elementary := ⟨Float.log, Float.pow⟩

/-- The place of a traversal on the percentile scale. -/
structure Ticks where
  /-- The number of ticks into which half of the rest up to 100 is divided. -/
  perHalf : Nat
  /-- The tick at which the next step ends. -/
  upcoming : Float
  /-- The tick at which the last step ended. -/
  passed : Float
  /-- Whether the closing step has been begun. -/
  closing : Bool

namespace Ticks

/-- Before the first tick, which is 0. -/
def start (perHalf : Nat) : Ticks := ⟨perHalf, 0.0, 0.0, false⟩

/-- The number of ticks that would fill the whole scale at the distance that holds at a tick. -/
def density (elementary : Elementary) (perHalf : Nat) (tick : Float) : Float :=
  let halvings := elementary.ln (100.0 / (100.0 - tick)) / elementary.ln 2.0 + 1.0
  Word.toFloat perHalf * elementary.power 2.0 halvings

/-- The tick after a given one. The scale ends at 100. -/
def following (elementary : Elementary) (perHalf : Nat) (tick : Float) : Float :=
  if 100.0 - tick != 0.0 then tick + 100.0 / density elementary perHalf tick else tick

def hasClosing (ticks : Ticks) (position : Position) : Bool :=
  !ticks.closing && decide (0 < position.total)

/-- Puts the upcoming tick at 100, once. -/
def beginClosing (ticks : Ticks) (position : Position) : Bool × Ticks :=
  if ticks.hasClosing position then (true, { ticks with upcoming := 100.0, closing := true })
  else (false, ticks)

/-- A step ends on a cell that holds a count, once the percentage reached is not below the upcoming
tick. -/
def endsStep (ticks : Ticks) (position : Position) : Bool :=
  position.count ≠ 0 && decide (ticks.upcoming ≤ position.percent)

def afterStep (elementary : Elementary) (ticks : Ticks) : Ticks :=
  { ticks with
    passed := ticks.upcoming
    upcoming := following elementary ticks.perHalf ticks.upcoming }

end Ticks

namespace Schedule

/-- A step at every tick, and one at 100. -/
def ticks (elementary : Elementary) : Schedule Ticks where
  hasClosing := Ticks.hasClosing
  beginClosing := Ticks.beginClosing
  endsStep := Ticks.endsStep
  afterStep ticks _ := ticks.afterStep elementary
  level ticks _ := ticks.upcoming

end Schedule

namespace Traversal

/-- The traversal along ticks, of which there has to be at least one to a half. -/
def overTicks (elementary : Elementary) (histogram : Histogram) (perHalf : Nat) :
    Except Fault (Traversal Ticks) :=
  if perHalf = 0 then .error .ticksInvalid
  else .ok (ofSchedule histogram (Schedule.ticks elementary) (Ticks.start perHalf))

end Traversal

end LogLinear
