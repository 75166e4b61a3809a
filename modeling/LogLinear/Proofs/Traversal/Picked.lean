import LogLinear.Proofs.Traversal.Chain

/-!
Contract: the walk of a schedule that picks cells by their counts.

Owns:
- the schedules with at most one step for each cell, as cases of one;
- the step on a picked cell, which adds its count and no other;
- the walk over all cells from the lowest one on, of which every picked one has one step.

Does not own: which counts are picked, as long as none is left out but zero.
-/

namespace LogLinear

/-! ### Schedules -/

namespace Schedule

/-- A step on each cell with a count that is wanted. -/
def picking (wanted : Nat → Bool) : Schedule LastStop where
  hasMore := LastStop.hasMore
  endsStep stop position := wanted position.count && !stop.isAt position
  afterStep _ position := ⟨some position.index⟩

theorem everyCell_eq_picking : everyCell = picking fun _ => true := rfl

theorem heldCells_eq_picking : heldCells = picking (decide <| · ≠ 0) := rfl

end Schedule

/-! ### Steps -/

namespace Histogram

/-- The step on a cell, from the value where the one before ended. It adds the count of the cell. -/
def stepOn (histogram : Histogram) (previousValue index : Nat) : Step where
  value := histogram.layout.ceiling (histogram.start index)
  previousValue := previousValue
  count := histogram.count index
  added := histogram.count index
  reached := histogram.countBefore (index + 1)
  weight := histogram.weightBefore (index + 1)
  percent := percentOf (histogram.countBefore (index + 1)) histogram.total
  level := percentOf (histogram.countBefore (index + 1)) histogram.total
  ratio := histogram.ratio

/-- The steps on some cells, each from where the one before ended. -/
def stepsOn (histogram : Histogram) (previousValue : Nat) : List Nat → List Step
  | [] => []
  | index :: later =>
    let step := histogram.stepOn previousValue index
    step :: histogram.stepsOn step.value later

end Histogram

/-! ### Turns -/

namespace Traversal

variable {histogram : Histogram} {wanted : Nat → Bool} {cell previousValue : Nat}
  {traversal : Traversal LastStop}

/-- The cells before the given one have been looked at, and what they count is in the steps that
have been taken. The traversal may still stand on the cell before, if the last step ended there. -/
structure Due (histogram : Histogram) (wanted : Nat → Bool) (cell previousValue : Nat)
    (traversal : Traversal LastStop) : Prop where
  schedule_eq : traversal.schedule = .picking wanted
  live : traversal.completed = false
  accounts : traversal.position.Accounts histogram
  cell_eq : cell =
    if traversal.position.fresh then traversal.position.index else traversal.position.index + 1
  before : ∀ index ∈ traversal.state.index, index < cell
  settled : traversal.position.fresh = false →
    traversal.state.index = some traversal.position.index
  stepReached_eq : traversal.position.stepReached = histogram.countBefore cell
  stepValue_eq : traversal.position.stepValue = previousValue

theorem due_ofSchedule (recorded : 0 < histogram.total) :
    Due histogram wanted 0 0 (ofSchedule histogram (.picking wanted) ⟨none⟩) where
  schedule_eq := rfl
  live := decide_eq_false recorded.ne'
  accounts := Position.accounts_origin histogram
  cell_eq := rfl
  before _ isStop := by cases isStop
  settled := nofun
  stepReached_eq := histogram.countBefore_zero.symm
  stepValue_eq := rfl

namespace Due

variable (due : Due histogram wanted cell previousValue traversal)
include due

theorem index_of_fresh (isFresh : traversal.position.fresh = true) :
    traversal.position.index = cell := by
  have cellEq := due.cell_eq
  rw [isFresh] at cellEq
  exact cellEq.symm

theorem isAt_eq : traversal.state.isAt traversal.position = !traversal.position.fresh := by
  cases isFresh : traversal.position.fresh with
  | false => exact decide_eq_true (due.settled isFresh)
  | true =>
      apply decide_eq_false
      intro isStop
      exact (due.before _ isStop).ne (due.index_of_fresh isFresh)

/-- There is more to look at up to the last cell, and a step is left for that one too. -/
theorem opened_eq (some : 0 < histogram.counters.size) :
    traversal.opened = (decide (cell < histogram.counters.size), traversal.state) := by
  have cellEq := due.cell_eq
  have hasMore : traversal.schedule.hasMore traversal.state traversal.position =
      decide (cell < histogram.counters.size) := by
    rw [due.schedule_eq]
    simp only [Schedule.picking, LastStop.hasMore, due.isAt_eq, due.accounts.histogram_eq,
      Bool.not_not]
    cases isFresh : traversal.position.fresh with
    | true =>
        rw [isFresh, if_pos rfl] at cellEq
        rw [Bool.and_true, ← Bool.decide_or, cellEq, decide_eq_decide]
        omega
    | false =>
        rw [isFresh, if_neg Bool.false_ne_true] at cellEq
        rw [Bool.and_false, Bool.or_false, cellEq, decide_eq_decide]
        omega
  have closing : traversal.schedule.beginClosing traversal.state traversal.position =
      (false, traversal.state) := by
    rw [due.schedule_eq]
    rfl
  rw [opened, hasMore, closing]
  by_cases inside : cell < histogram.counters.size
  · simp only [inside, decide_true, if_true]
  · simp only [inside, decide_false, Bool.false_eq_true, if_false]

theorem endsStep_eq : traversal.schedule.endsStep traversal.state traversal.position.visited =
    (wanted (histogram.count traversal.position.index) && traversal.position.fresh) := by
  have isAt : traversal.state.isAt traversal.position.visited = !traversal.position.fresh := by
    rw [← due.isAt_eq, LastStop.isAt, Position.visited_index, LastStop.isAt]
  rw [due.schedule_eq]
  simp only [Schedule.picking, due.accounts.visited_count, isAt, Bool.not_not]

theorem finished (some : 0 < histogram.counters.size) (isOver : cell = histogram.counters.size) :
    traversal.next.1 = none := by
  have closed : traversal.opened.1 = false := by
    rw [due.opened_eq some, isOver]
    simp
  rw [next_of_live due.live, run_of_finished (turn_of_opened_eq_false closed)]

/-- Nothing has been counted between the last step and the cell. -/
theorem endingAt_eq (isFresh : traversal.position.fresh = true) :
    Step.endingAt traversal.position.visited traversal.position.visited.percent =
      histogram.stepOn previousValue cell := by
  have isIndex := due.index_of_fresh isFresh
  have value : traversal.position.visited.value =
      histogram.layout.ceiling (histogram.start cell) := by
    rw [due.accounts.visited.value_eq, Position.visited_index, isIndex]
  have count : traversal.position.visited.count = histogram.count cell := by
    rw [due.accounts.visited_count, isIndex]
  have reached : traversal.position.visited.reached = histogram.countBefore (cell + 1) := by
    rw [due.accounts.visited_reached, isIndex]
  have added : histogram.countBefore (cell + 1) - histogram.countBefore cell =
      histogram.count cell := by
    rw [histogram.countBefore_succ, Nat.add_sub_cancel_left]
  have weight : traversal.position.visited.weight = histogram.weightBefore (cell + 1) := by
    rw [due.accounts.visited_weight, isIndex]
  simp only [Step.endingAt, Histogram.stepOn, Position.percent, Position.total, value, count,
    added, reached, weight, Position.visited_stepValue, due.stepValue_eq,
    Position.visited_stepReached, due.stepReached_eq, due.accounts.visited.histogram_eq]

section Inside

variable (inside : cell < histogram.counters.size)
include inside

theorem opened_of_lt : traversal.opened = (true, traversal.state) := by
  rw [due.opened_eq (Nat.zero_lt_of_lt inside), decide_eq_true inside]

/-- A move keeps what is due if nothing is counted where it passes. -/
theorem exists_moved {nextCell : Nat}
    (goesOn : wanted (histogram.count traversal.position.index) = false ∨
      traversal.position.fresh = false)
    (isNext : nextCell = traversal.position.index + 1) (ordered : cell ≤ nextCell)
    (nothingAdded : histogram.countBefore cell = histogram.countBefore nextCell) :
    ∃ after, traversal.turn = .moved after ∧ after.position.fresh = true ∧
      Due histogram wanted nextCell previousValue after := by
  have isOpened := due.opened_of_lt inside
  refine ⟨_, turn_eq_moved_iff.mpr ⟨by rw [isOpened], ?_, rfl⟩, rfl, ?_⟩
  · rw [isOpened, due.endsStep_eq, Bool.and_eq_false_iff]
    exact goesOn
  · rw [isOpened]
    exact ⟨due.schedule_eq, due.live, due.accounts.visited.forward (Position.visited_fresh _),
      isNext.trans (congrArg (· + 1) (Position.visited_index _).symm),
      fun index isStop => (due.before index isStop).trans_le ordered, nofun,
      (Position.visited_stepReached _).trans (due.stepReached_eq.trans nothingAdded),
      (Position.visited_stepValue _).trans due.stepValue_eq⟩

/-- Looking at the cell of the last step again adds nothing, and the traversal moves on. -/
theorem exists_moved_of_settled (isSettled : traversal.position.fresh = false) :
    ∃ after, traversal.turn = .moved after ∧ after.position.fresh = true ∧
      Due histogram wanted cell previousValue after := by
  have isNext := due.cell_eq
  rw [isSettled] at isNext
  exact due.exists_moved inside (.inr isSettled) isNext le_rfl rfl

section Fresh

variable (isFresh : traversal.position.fresh = true)
include isFresh

theorem exists_stepped (isWanted : wanted (histogram.count cell) = true) :
    ∃ after, traversal.turn = .stepped (histogram.stepOn previousValue cell) after ∧
      Due histogram wanted (cell + 1) (histogram.stepOn previousValue cell).value after := by
  have isOpened := due.opened_of_lt inside
  have isIndex := due.index_of_fresh isFresh
  have isStep := due.endingAt_eq isFresh
  refine ⟨_, turn_eq_stepped_iff.mpr ⟨by rw [isOpened], ?_, ?_, rfl⟩, ?_⟩
  · rw [isOpened, due.endsStep_eq, isIndex, isWanted, isFresh]
    rfl
  · rw [isOpened, due.schedule_eq]
    exact isStep.symm
  · rw [isOpened]
    refine ⟨due.schedule_eq, due.live, due.accounts.visited.settled _, ?_, ?_, ?_, ?_, ?_⟩
    · simp [Position.settled, Position.visited_fresh, Position.visited_index, isIndex]
    · rw [due.schedule_eq]
      simp [Schedule.picking, Position.settled, Position.visited_index, isIndex]
    · intro _
      rw [due.schedule_eq]
      rfl
    · exact congrArg Step.reached isStep
    · exact congrArg Step.value isStep

theorem exists_moved_of_unwanted (isUnwanted : wanted (histogram.count cell) = false)
    (none : histogram.count cell = 0) :
    ∃ after, traversal.turn = .moved after ∧
      Due histogram wanted (cell + 1) previousValue after := by
  have isIndex := due.index_of_fresh isFresh
  obtain ⟨after, moved, -, later⟩ := due.exists_moved inside (.inl (isIndex ▸ isUnwanted))
    (congrArg (· + 1) isIndex.symm) (Nat.le_succ cell)
    (by rw [histogram.countBefore_succ, none, Nat.add_zero])
  exact ⟨after, moved, later⟩

/-- The cell has its step if its count is wanted, and then come those of the cells after it. -/
theorem yields_of_fresh (word : cell < Word.max)
    (unwanted : ∀ count, wanted count = false → count = 0) {rest : List Nat}
    (later : ∀ {after : Traversal LastStop} {previousValue : Nat},
      Due histogram wanted (cell + 1) previousValue after →
      after.Yields (histogram.stepsOn previousValue rest)) :
    traversal.Yields (histogram.stepsOn previousValue
      (if wanted (histogram.count cell) then cell :: rest else rest)) := by
  cases isWanted : wanted (histogram.count cell) with
  | true =>
      obtain ⟨after, stepped, afterDue⟩ := due.exists_stepped inside isFresh isWanted
      exact .of_stepped due.live stepped (later afterDue)
  | false =>
      obtain ⟨after, moved, afterDue⟩ :=
        due.exists_moved_of_unwanted inside isFresh isWanted (unwanted _ isWanted)
      refine .of_moved due.live moved ?_ (later afterDue)
      rw [due.index_of_fresh isFresh]
      exact word

end Fresh

end Inside

/-! ### Runs -/

/-- Every cell from the one that is due to the last one has one step if its count is wanted. What is
not wanted is not missing from the steps, as it is zero. -/
theorem yields (sound : histogram.Sound) (unwanted : ∀ count, wanted count = false → count = 0)
    (some : 0 < histogram.counters.size) {remaining : Nat}
    (isRest : cell + remaining = histogram.counters.size) :
    traversal.Yields (histogram.stepsOn previousValue
      ((List.range' cell remaining).filter fun index => wanted (histogram.count index))) := by
  -- A round of the induction is what a pull does about one more cell, be it a step or a move.
  induction remaining generalizing cell previousValue traversal with
  | zero => exact .ended (due.finished some isRest)
  | succ remaining inductionHypothesis =>
      have inside : cell < histogram.counters.size := by omega
      have word : cell < Word.max := histogram.layout.lt_max_of_counted (sound.size_eq ▸ inside)
      have rest : cell + 1 + remaining = histogram.counters.size := by omega
      rw [List.range'_succ, List.filter_cons]
      cases isFresh : traversal.position.fresh with
      | true =>
          exact due.yields_of_fresh inside isFresh word unwanted fun afterDue =>
            inductionHypothesis afterDue rest
      | false =>
          -- The last step ended on the cell before, which is left without another one.
          obtain ⟨after, moved, afterFresh, afterDue⟩ := due.exists_moved_of_settled inside isFresh
          have before : traversal.position.index < cell := due.before _ (due.settled isFresh)
          refine .of_moved due.live moved (before.trans word) ?_
          exact afterDue.yields_of_fresh inside afterFresh word unwanted fun laterDue =>
            inductionHypothesis laterDue rest

end Due

end Traversal

end LogLinear
