import LogLinear.Traversal.Position

/-!
Contract: the decisions of a traversal, which are where it ends its steps and when it is over.

Owns: the record of these decisions, and their usual answers.

Does not own: the walk over the cells. `LogLinear.Traversal` asks a schedule on its way.
-/

namespace LogLinear

/-- A way to place steps, with a state of its own.

A schedule sees the position of the traversal. With the usual answers a traversal is over when every
recorded value has been reached, has no closing step, and reports the percentage reached. -/
structure Schedule (σ : Type) where
  /-- Whether there are cells left to look at. -/
  hasMore : σ → Position → Bool := fun _ position => position.isOutstanding
  /-- Whether a closing step is due after the cells. -/
  hasClosing : σ → Position → Bool := fun _ _ => false
  /-- Asked when there are no cells left: whether a closing step is to be tried, and the state from
  then on. -/
  beginClosing : σ → Position → Bool × σ := fun state _ => (false, state)
  /-- Whether a step ends at the position. -/
  endsStep : σ → Position → Bool
  /-- The state after a step that ended at the position. -/
  afterStep : σ → Position → σ
  /-- The percentage for which a step that ends at the position is taken. -/
  level : σ → Position → Float := fun _ position => position.percent

end LogLinear
