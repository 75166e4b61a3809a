import LogLinear.Traversal.Position

/-!
Contract: one step of a traversal, as it is reported.

Owns: the values, counts and percentages of a step, and its values as measured quantities.

Does not own: which steps are taken.
-/

namespace LogLinear

/-- What a traversal reports of the cells it crossed since the step before. -/
structure Step where
  /-- The greatest value of the cell that the step ended on. -/
  value : Nat
  /-- The same of the step before, or 0 for the first step. -/
  previousValue : Nat
  /-- The count of the cell that the step ended on. -/
  count : Nat
  /-- The number of values counted since the step before. -/
  added : Nat
  /-- The number of values counted up to the end of the step. -/
  reached : Nat
  /-- The sum of those values, each taken as the greatest of its cell. -/
  weight : Nat
  /-- The percentage of the recorded values that has been reached. -/
  percent : Float
  /-- The percentage for which the step was taken. -/
  level : Float
  /-- The conversion ratio of the histogram. -/
  ratio : Float

namespace Step

/-- The step that ends at a position. -/
@[inline]
def endingAt (position : Position) (level : Float) : Step where
  value := position.value
  previousValue := position.stepValue
  count := position.count
  added := position.reached - position.stepReached
  reached := position.reached
  weight := position.weight
  percent := position.percent
  level := level
  ratio := position.histogram.ratio

/-- The measured quantity that the value of the step stands for. -/
def quantity (step : Step) : Float := Word.toFloat step.value * step.ratio

/-- The measured quantity that the value of the step before stands for. -/
def previousQuantity (step : Step) : Float := Word.toFloat step.previousValue * step.ratio

end Step

end LogLinear
