import LogLinear.Proofs.Cell.Range
import LogLinear.Proofs.Histogram.Sound
import LogLinear.Traversal

/-!
Contract: walks over the cells of a histogram, whatever the schedule.

Owns:
- the invariant of positions: they stand on a cell of the histogram, with the counts up to it;
- the outcomes of a turn, each with its condition;
- the steps of a whole traversal, and what holds of all of them because each turn keeps it.

Does not own: any one schedule.
-/

namespace LogLinear

/-! ### Positions -/

namespace Position

/-- The position stands on a cell of the histogram and has reached the counts up to it, or before it
while the cell is still to be folded in. -/
structure Follows (histogram : Histogram) (position : Position) : Prop where
  histogram_eq : position.histogram = histogram
  start_eq : position.start = histogram.start position.index
  nextStart_eq : position.nextStart = histogram.start (position.index + 1)
  reached_eq : position.reached =
    histogram.countBefore (if position.fresh then position.index else position.index + 1)

variable {histogram : Histogram} {position : Position}

theorem follows_origin (histogram : Histogram) : (origin histogram).Follows histogram where
  histogram_eq := rfl
  start_eq := histogram.layout.start_zero.symm
  nextStart_eq := (Nat.one_shiftLeft _).trans histogram.layout.start_one.symm
  reached_eq := histogram.countBefore_zero.symm

theorem visited_fresh (position : Position) : position.visited.fresh = false := by
  unfold visited
  split <;> simp_all

theorem Follows.visited (follows : position.Follows histogram) :
    position.visited.Follows histogram := by
  obtain ⟨rfl, start, nextStart, reached⟩ := follows
  unfold Position.visited
  split
  next fresh =>
    rw [if_pos fresh] at reached
    exact ⟨rfl, start, nextStart, by
      simp only [reached, Bool.false_eq_true, if_false, Histogram.countBefore_succ]⟩
  next => exact ⟨rfl, start, nextStart, reached⟩

theorem Follows.visited_count (follows : position.Follows histogram) :
    position.visited.count = histogram.count position.index := by
  obtain ⟨rfl, -, -, -⟩ := follows
  unfold Position.visited
  split <;> rfl

theorem visited_index (position : Position) : position.visited.index = position.index := by
  unfold visited
  split <;> rfl

theorem Follows.visited_reached (follows : position.Follows histogram) :
    position.visited.reached = histogram.countBefore (position.index + 1) := by
  have reached := follows.visited.reached_eq
  rw [visited_fresh, visited_index] at reached
  exact reached

theorem Follows.settled (follows : position.Follows histogram) (value : Nat) :
    (position.settled value).Follows histogram :=
  ⟨follows.histogram_eq, follows.start_eq, follows.nextStart_eq, follows.reached_eq⟩

/-- A position may move on when its cell has been folded in. -/
theorem Follows.forward (follows : position.Follows histogram) (folded : position.fresh = false) :
    position.forward.Follows histogram := by
  obtain ⟨rfl, -, -, reached⟩ := follows
  rw [folded] at reached
  exact ⟨rfl, rfl, rfl, reached⟩

theorem Follows.reached_le_sumOf (follows : position.Follows histogram) :
    position.reached ≤ Histogram.sumOf histogram.counters := by
  rw [follows.reached_eq]
  exact histogram.countBefore_le _

theorem Follows.reached_le (sound : histogram.Sound) (follows : position.Follows histogram) :
    position.reached ≤ histogram.total := by
  rw [sound.total_eq]
  exact follows.reached_le_sumOf

/-- Once no value is outstanding all of them have been reached. -/
theorem Follows.reached_eq_total (sound : histogram.Sound) (follows : position.Follows histogram)
    (none : ¬ position.reached < histogram.total) : position.reached = histogram.total :=
  le_antisymm (follows.reached_le sound) (Nat.le_of_not_lt none)

theorem Follows.countBefore_le (follows : position.Follows histogram) :
    histogram.countBefore position.index ≤ position.reached := by
  rw [follows.reached_eq]
  split
  · exact le_rfl
  · exact histogram.countBefore_mono (Nat.le_succ _)

theorem Follows.reached_le_visited (follows : position.Follows histogram) :
    position.reached ≤ position.visited.reached := by
  rw [follows.reached_eq, follows.visited_reached]
  split
  · exact histogram.countBefore_mono (Nat.le_succ _)
  · exact le_rfl

/-- Nothing is reached on a cell that holds no count. -/
theorem Follows.visited_reached_of_count_eq_zero (follows : position.Follows histogram)
    (none : histogram.count position.index = 0) : position.visited.reached = position.reached := by
  have same : histogram.countBefore (position.index + 1) = histogram.countBefore position.index := by
    rw [histogram.countBefore_succ, none, Nat.add_zero]
  rw [follows.visited_reached, follows.reached_eq]
  split
  · exact same
  · rfl

theorem Follows.value_eq (follows : position.Follows histogram) :
    position.value = histogram.layout.ceiling (histogram.start position.index) := by
  rw [value, follows.histogram_eq, follows.start_eq]

end Position

namespace Traversal

variable {σ : Type} {traversal after : Traversal σ} {step : Step}

theorem total_pos_of_recorded {histogram : Histogram} (recorded : histogram.isEmpty = false) :
    0 < histogram.total := by
  rw [Histogram.isEmpty, decide_eq_false_iff_not] at recorded
  exact Nat.pos_of_ne_zero recorded

/-! ### Turns -/

theorem turn_eq (traversal : Traversal σ) :
    traversal.turn =
      if traversal.opened.1 then
        if traversal.schedule.endsStep traversal.opened.2 traversal.position.visited then
          .stepped
            (Step.endingAt traversal.position.visited
              (traversal.schedule.level traversal.opened.2 traversal.position.visited))
            { traversal with
              state := traversal.schedule.afterStep traversal.opened.2
                (traversal.position.visited.settled traversal.position.visited.value)
              position := traversal.position.visited.settled traversal.position.visited.value }
        else .moved
          { traversal with
            state := traversal.opened.2
            position := traversal.position.visited.forward }
      else .finished { traversal with state := traversal.opened.2, completed := true } :=
  rfl

theorem turn_eq_stepped_iff :
    traversal.turn = .stepped step after ↔
      traversal.opened.1 = true ∧
      traversal.schedule.endsStep traversal.opened.2 traversal.position.visited = true ∧
      step = Step.endingAt traversal.position.visited
        (traversal.schedule.level traversal.opened.2 traversal.position.visited) ∧
      after = { traversal with
        state := traversal.schedule.afterStep traversal.opened.2
          (traversal.position.visited.settled traversal.position.visited.value)
        position := traversal.position.visited.settled traversal.position.visited.value } := by
  rw [turn_eq]
  split_ifs with goesOn ends
  · simp only [Turn.stepped.injEq, goesOn, ends, true_and]
    exact and_congr eq_comm eq_comm
  · simp [ends]
  · simp [goesOn]

theorem turn_eq_moved_iff :
    traversal.turn = .moved after ↔
      traversal.opened.1 = true ∧
      traversal.schedule.endsStep traversal.opened.2 traversal.position.visited = false ∧
      after = { traversal with
        state := traversal.opened.2
        position := traversal.position.visited.forward } := by
  rw [turn_eq]
  split_ifs with goesOn ends
  · simp [ends]
  · simp only [Turn.moved.injEq, goesOn, ends, true_and]
    exact eq_comm
  · simp [goesOn]

theorem turn_eq_finished_iff :
    traversal.turn = .finished after ↔ traversal.opened.1 = false ∧
      after = { traversal with state := traversal.opened.2, completed := true } := by
  rw [turn_eq]
  split_ifs with goesOn ends
  · simp [goesOn]
  · simp [goesOn]
  · simp only [Turn.finished.injEq, goesOn, true_and]
    exact eq_comm

theorem index_of_turn_eq_stepped (stepped : traversal.turn = .stepped step after) :
    after.position.index = traversal.position.index := by
  obtain ⟨-, -, -, rfl⟩ := turn_eq_stepped_iff.mp stepped
  exact Position.visited_index _

theorem reached_of_turn_eq_stepped (stepped : traversal.turn = .stepped step after) :
    after.position.reached = traversal.position.visited.reached := by
  obtain ⟨-, -, -, rfl⟩ := turn_eq_stepped_iff.mp stepped
  rfl

theorem reached_of_turn_eq_moved (moved : traversal.turn = .moved after) :
    after.position.reached = traversal.position.visited.reached := by
  obtain ⟨-, -, rfl⟩ := turn_eq_moved_iff.mp moved
  rfl

theorem completed_of_turn_eq_moved (moved : traversal.turn = .moved after) :
    after.completed = traversal.completed := by
  obtain ⟨-, -, rfl⟩ := turn_eq_moved_iff.mp moved
  rfl

theorem opened_of_turn_eq_finished (finished : traversal.turn = .finished after) :
    traversal.opened.1 = false := by
  rw [turn_eq] at finished
  split_ifs at finished with goesOn
  simpa using goesOn

theorem turn_ne_finished (goesOn : traversal.opened.1 = true) :
    traversal.turn ≠ .finished after := by
  intro finished
  rw [opened_of_turn_eq_finished finished] at goesOn
  exact Bool.noConfusion goesOn

theorem turn_of_opened_eq_false (closed : traversal.opened.1 = false) :
    traversal.turn = .finished { traversal with state := traversal.opened.2, completed := true } := by
  rw [turn_eq, if_neg (by simp [closed])]

theorem follows_of_turn_eq_stepped {histogram : Histogram}
    (follows : traversal.position.Follows histogram) (stepped : traversal.turn = .stepped step after) :
    after.position.Follows histogram := by
  obtain ⟨-, -, -, rfl⟩ := turn_eq_stepped_iff.mp stepped
  exact follows.visited.settled _

theorem follows_of_turn_eq_moved {histogram : Histogram}
    (follows : traversal.position.Follows histogram) (moved : traversal.turn = .moved after) :
    after.position.Follows histogram := by
  obtain ⟨-, -, rfl⟩ := turn_eq_moved_iff.mp moved
  exact follows.visited.forward (Position.visited_fresh _)

/-! ### Runs -/

/-- The traversal after a number of pulls. -/
def pulled : Nat → Traversal σ → Traversal σ
  | 0, traversal => traversal
  | pulls + 1, traversal => pulled pulls traversal.next.2

/-- The steps of a traversal, pulled one after the other until there is none. -/
inductive Yields : Traversal σ → List Step → Prop
  | ended {traversal : Traversal σ} (none : traversal.next.1 = none) : Yields traversal []
  | step {traversal after : Traversal σ} {step : Step} {steps : List Step}
      (next : traversal.next = (some step, after)) (rest : Yields after steps) :
      Yields traversal (step :: steps)

theorem next_of_live (live : traversal.completed = false) : traversal.next = traversal.run := by
  rw [next, live]
  rfl

theorem run_of_next_eq_some (isNext : traversal.next = (some step, after)) :
    traversal.run = (some step, after) := by
  unfold next at isNext
  split at isNext
  · simp at isNext
  · exact isNext

theorem next_of_stepped (live : traversal.completed = false)
    (stepped : traversal.turn = .stepped step after) : traversal.next = (some step, after) := by
  rw [next_of_live live, run_of_stepped stepped]

/-- A move is part of the pull that it is made in. -/
theorem next_of_moved (live : traversal.completed = false) (moved : traversal.turn = .moved after)
    (inside : traversal.position.index < Word.max) : traversal.next = after.next := by
  have liveAfter := (completed_of_turn_eq_moved moved).trans live
  rw [next_of_live live, next_of_live liveAfter, run_of_moved moved inside]

theorem Yields.of_stepped (live : traversal.completed = false)
    (stepped : traversal.turn = .stepped step after) {steps : List Step}
    (rest : after.Yields steps) : traversal.Yields (step :: steps) :=
  .step (next_of_stepped live stepped) rest

theorem Yields.of_moved (live : traversal.completed = false)
    (moved : traversal.turn = .moved after) (inside : traversal.position.index < Word.max)
    {steps : List Step} (rest : after.Yields steps) : traversal.Yields steps := by
  have same := next_of_moved live moved inside
  cases rest with
  | ended none => exact .ended (same ▸ none)
  | step isNext later => exact .step (same.trans isNext) later

theorem Yields.eq_nil (none : traversal.next.1 = none) {steps : List Step}
    (yields : traversal.Yields steps) : steps = [] := by
  cases yields with
  | ended => rfl
  | step next =>
      rw [next] at none
      exact absurd none (Option.some_ne_none _)

/-- A step of a run is that of its last turn, which the moves before it lead to. -/
theorem exists_turn_of_run {invariant : Traversal σ → Prop}
    (moved : ∀ {before after : Traversal σ},
      invariant before → before.turn = .moved after → invariant after)
    (start : invariant traversal) (yielded : traversal.run = (some step, after)) :
    ∃ last, invariant last ∧ last.turn = .stepped step after := by
  fun_induction run traversal with
  | case1 => simp at yielded
  | case2 before taken next turned =>
      cases yielded
      exact ⟨before, start, turned⟩
  | case3 before next turned inside inductionHypothesis =>
      exact inductionHypothesis (moved start turned) yielded
  | case4 => simp at yielded

/-- What every turn keeps holds throughout a traversal, and so every step has what a turn gives
it. -/
theorem Yields.forall_steps (invariant : Traversal σ → Prop) {property : Step → Prop}
    (moved : ∀ {before after : Traversal σ},
      invariant before → before.turn = .moved after → invariant after)
    (stepped : ∀ {before after : Traversal σ} {step : Step},
      invariant before → before.turn = .stepped step after → invariant after ∧ property step)
    {steps : List Step} (yields : traversal.Yields steps) (start : invariant traversal) :
    ∀ step ∈ steps, property step := by
  induction yields with
  | ended => simp
  | @step before next taken rest isNext _ inductionHypothesis =>
      obtain ⟨last, holds, turned⟩ := exists_turn_of_run moved start (run_of_next_eq_some isNext)
      obtain ⟨holdsAfter, hasProperty⟩ := stepped holds turned
      intro step member
      rcases List.mem_cons.mp member with rfl | later
      · exact hasProperty
      · exact inductionHypothesis holdsAfter step later

end Traversal

end LogLinear
