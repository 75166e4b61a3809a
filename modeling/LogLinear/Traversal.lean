import LogLinear.Traversal.Schedule
import LogLinear.Traversal.Step

/-!
Contract: traversals, which walk over the cells of a histogram from the lowest one upwards and
report steps where a schedule asks for them.

Owns:
- one turn: fold the cell in, ask the schedule, and take a step or move on;
- `next`, which takes turns until there is a step or the traversal is over;
- the comparison of two traversals.

A traversal holds the histogram as it was when the traversal was made.

Does not own: the schedules.
-/

namespace LogLinear

/-- A walk over the cells of a histogram. -/
structure Traversal (σ : Type) where
  schedule : Schedule σ
  state : σ
  position : Position
  completed : Bool

/-- What one turn of a traversal comes to. -/
inductive Turn (σ : Type) where
  /-- The traversal is over. -/
  | finished (traversal : Traversal σ)
  /-- A step ended on the cell. -/
  | stepped (step : Step) (traversal : Traversal σ)
  /-- The traversal moved on to the next cell. -/
  | moved (traversal : Traversal σ)

namespace Traversal

variable {σ : Type}

/-- A traversal of a histogram, before its first turn. Over an empty histogram there is none to
take. -/
def ofSchedule (histogram : Histogram) (schedule : Schedule σ) (state : σ) : Traversal σ where
  schedule := schedule
  state := state
  position := Position.origin histogram
  completed := histogram.isEmpty

/-- Whether the schedule still has cells to look at or a closing step to take. A traversal may end
without another step nevertheless, for instance if nothing is counted in the cells left. -/
def mayContinue (traversal : Traversal σ) : Bool :=
  !traversal.completed &&
    (traversal.schedule.hasMore traversal.state traversal.position ||
      traversal.schedule.hasClosing traversal.state traversal.position)

/-- Whether the traversal goes on to look at its cell, and the state of the schedule from then on.
The closing step is begun only when there are no cells left. -/
@[inline]
def opened (traversal : Traversal σ) : Bool × σ :=
  if traversal.schedule.hasMore traversal.state traversal.position then (true, traversal.state)
  else traversal.schedule.beginClosing traversal.state traversal.position

/-- One turn: look at the cell, and take a step there or move on to the next one. -/
@[inline]
def turn (traversal : Traversal σ) : Turn σ :=
  let (goesOn, state) := traversal.opened
  if goesOn then
    let position := traversal.position.visited
    if traversal.schedule.endsStep state position then
      let step := Step.endingAt position (traversal.schedule.level state position)
      let position := position.settled step.value
      .stepped step
        { traversal with
          state := traversal.schedule.afterStep state position
          position := position }
    else .moved { traversal with state := state, position := position.forward }
  else .finished { traversal with state := state, completed := true }

/-- A move goes to the next cell. -/
theorem index_of_turn_eq_moved {traversal after : Traversal σ}
    (moved : traversal.turn = .moved after) :
    after.position.index = traversal.position.index + 1 := by
  unfold turn at moved
  dsimp only at moved
  split at moved
  · split at moved
    · simp at moved
    · simp only [Turn.moved.injEq] at moved
      subst moved
      simp only [Position.forward, Position.visited]
      split <;> rfl
  · simp at moved

/-- Takes turns until a step ends or the traversal is over. Indices are words, so that a schedule
which never ends a step cannot go on forever. -/
def run (traversal : Traversal σ) : Option Step × Traversal σ :=
  match _outcome : traversal.turn with
  | .finished after => (none, after)
  | .stepped step after => (some step, after)
  | .moved after =>
    if traversal.position.index < Word.max then run after
    else (none, { after with completed := true })
termination_by Word.max - traversal.position.index
decreasing_by
  have next := index_of_turn_eq_moved ‹traversal.turn = .moved after›
  omega

theorem run_of_finished {traversal after : Traversal σ}
    (finished : traversal.turn = .finished after) : traversal.run = (none, after) := by
  rw [run]
  split <;> simp_all

theorem run_of_stepped {traversal after : Traversal σ} {step : Step}
    (stepped : traversal.turn = .stepped step after) : traversal.run = (some step, after) := by
  rw [run]
  split <;> simp_all

theorem run_of_moved {traversal after : Traversal σ} (moved : traversal.turn = .moved after)
    (inside : traversal.position.index < Word.max) : traversal.run = after.run := by
  rw [run]
  split <;> simp_all

/-- The next step, if there is one. A completed traversal stays as it is. -/
def next (traversal : Traversal σ) : Option Step × Traversal σ :=
  if traversal.completed then (none, traversal) else traversal.run

/-- Traversals of any kind agree when both are over. -/
def agrees {τ : Type} (left : Traversal σ) (right : Traversal τ) : Bool :=
  left.completed && right.completed

end Traversal

end LogLinear
