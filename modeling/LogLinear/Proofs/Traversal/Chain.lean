import LogLinear.Proofs.Traversal.Totals

/-!
Contract: the steps of a traversal as a chain, whatever the schedule does.

Owns:
- the stops of a number of pulls, which are the steps with the cells they end on;
- what a stop reports, which its cell alone decides but for where it starts;
- what every turn keeps, carried over any number of pulls;
- the relation of a stop to the one before it.

Does not own: how many steps end on a cell, which is up to the schedule.
-/

namespace LogLinear

/-- A step with the index of the cell that it ended on. -/
structure Stop where
  index : Nat
  step : Step

namespace Stop

variable {histogram : Histogram} {stop earlier later : Stop}

/-- The step has the totals up to its cell, and the greatest value of that cell. -/
structure Reports (histogram : Histogram) (stop : Stop) : Prop where
  value_eq : stop.step.value = histogram.layout.ceiling (histogram.start stop.index)
  reached_eq : stop.step.reached = histogram.countBefore (stop.index + 1)
  weight_eq : stop.step.weight = histogram.weightBefore (stop.index + 1)

/-- The step has the count of its cell, and the percentage up to there, as they are asked for
directly. -/
structure Quotes (histogram : Histogram) (stop : Stop) : Prop where
  value_eq : stop.step.value = histogram.layout.ceiling (histogram.start stop.index)
  count_eq : stop.step.count = histogram.count stop.index
  percent_eq : stop.step.percent =
    Histogram.percentOf (histogram.countBefore (stop.index + 1)) histogram.total

/-- A stop carries on from an earlier one: it starts where that one ended, no total is less than it
was there, and what it adds is what has been reached since. -/
structure Continues (earlier later : Stop) : Prop where
  previousValue_eq : later.step.previousValue = earlier.step.value
  value_le : earlier.step.value ≤ later.step.value
  reached_le : earlier.step.reached ≤ later.step.reached
  weight_le : earlier.step.weight ≤ later.step.weight
  added_eq : later.step.added = later.step.reached - earlier.step.reached
  added_of_index_eq : later.index = earlier.index → later.step.added = 0

/-- Totals never decrease because they are those of the cells, in the order of the cells. -/
theorem Reports.continues (earlierReports : earlier.Reports histogram)
    (laterReports : later.Reports histogram) (ordered : earlier.index ≤ later.index)
    (previousValue : later.step.previousValue = earlier.step.value)
    (added : later.step.added = later.step.reached - earlier.step.reached) :
    earlier.Continues later where
  previousValue_eq := previousValue
  value_le := by
    rw [earlierReports.value_eq, laterReports.value_eq]
    exact histogram.layout.ceiling_mono (histogram.layout.start_mono ordered)
  reached_le := by
    rw [earlierReports.reached_eq, laterReports.reached_eq]
    exact histogram.countBefore_mono (Nat.succ_le_succ ordered)
  weight_le := by
    rw [earlierReports.weight_eq, laterReports.weight_eq]
    exact histogram.weightBefore_mono (Nat.succ_le_succ ordered)
  added_eq := added
  added_of_index_eq same := by
    rw [added, laterReports.reached_eq, same, ← earlierReports.reached_eq, Nat.sub_self]

/-- What the stops of a chain add makes up the difference of its ends. -/
theorem reached_add_sum_of_chain {first : Stop} {stops : List Stop}
    (chain : (first :: stops).IsChain Continues) :
    first.step.reached + (stops.map (·.step.added)).sum =
      ((first :: stops).getLast (List.cons_ne_nil _ _)).step.reached := by
  induction stops generalizing first with
  | nil => rfl
  | cons second stops inductionHypothesis =>
      obtain ⟨continues, rest⟩ := List.isChain_cons_cons.mp chain
      have total := inductionHypothesis rest
      rw [List.map_cons, List.sum_cons, continues.added_eq, ← Nat.add_assoc,
        Nat.add_sub_cancel' continues.reached_le, total]
      rw [List.getLast_cons (List.cons_ne_nil _ _)]

end Stop

namespace Traversal

variable {σ : Type} {traversal before after : Traversal σ} {step : Step}

/-- The stops of a number of pulls, in their order. A pull that gives no step leaves none. -/
def stops : Nat → Traversal σ → List Stop
  | 0, _ => []
  | pulls + 1, traversal =>
    match traversal.next with
    | (some step, after) => ⟨after.position.index, step⟩ :: stops pulls after
    | (none, after) => stops pulls after

theorem stops_of_some (pulls : Nat) (isNext : traversal.next = (some step, after)) :
    stops (pulls + 1) traversal = ⟨after.position.index, step⟩ :: stops pulls after := by
  rw [stops, isNext]

theorem completed_of_none (isNext : traversal.next = (none, after)) : after.completed = true := by
  unfold next at isNext
  split at isNext
  next isOver =>
    cases isNext
    exact isOver
  next =>
    fun_induction run traversal with
    | case1 before after turned =>
        cases isNext
        obtain ⟨-, rfl⟩ := turn_eq_finished_iff.mp turned
        rfl
    | case2 => simp at isNext
    | case3 before after turned inside inductionHypothesis =>
        refine inductionHypothesis ?_ isNext
        rw [completed_of_turn_eq_moved turned]
        assumption
    | case4 =>
        cases isNext
        rfl

/-- A traversal is over once all of its steps and the end of them have been pulled. -/
theorem Yields.completes {steps : List Step} (yields : traversal.Yields steps) :
    ∃ last, (pulled steps.length traversal).next = (none, last) ∧ last.completed = true := by
  induction yields with
  | @ended traversal isOver =>
      have isNext : traversal.next = (none, traversal.next.2) := Prod.ext isOver rfl
      exact ⟨traversal.next.2, isNext, completed_of_none isNext⟩
  | step isNext _ inductionHypothesis =>
      rw [List.length_cons, pulled, isNext]
      exact inductionHypothesis

theorem stops_of_completed (pulls : Nat) (isOver : traversal.completed = true) :
    stops pulls traversal = [] := by
  have isNext : traversal.next = (none, traversal) := by rw [next, if_pos isOver]
  induction pulls with
  | zero => rfl
  | succ pulls inductionHypothesis =>
      rw [stops, isNext]
      exact inductionHypothesis

theorem stops_of_none (pulls : Nat) (isNext : traversal.next = (none, after)) :
    stops (pulls + 1) traversal = [] := by
  rw [stops, isNext]
  exact stops_of_completed pulls (completed_of_none isNext)

theorem pulled_add (pulls more : Nat) (traversal : Traversal σ) :
    pulled (pulls + more) traversal = pulled more (pulled pulls traversal) := by
  induction pulls generalizing traversal with
  | zero => rw [Nat.zero_add, pulled]
  | succ pulls inductionHypothesis =>
      rw [Nat.add_right_comm, pulled, pulled]
      exact inductionHypothesis traversal.next.2

theorem pulled_of_completed (pulls : Nat) (isOver : traversal.completed = true) :
    pulled pulls traversal = traversal := by
  induction pulls with
  | zero => rfl
  | succ pulls inductionHypothesis =>
      rw [pulled, next, if_pos isOver]
      exact inductionHypothesis

/-- What every turn keeps holds between pulls, until the traversal is over. -/
theorem completed_or_pulled (invariant : Traversal σ → Prop)
    (moved : ∀ {before after : Traversal σ},
      invariant before → before.turn = .moved after → invariant after)
    (stepped : ∀ {before after : Traversal σ} {step : Step},
      invariant before → before.turn = .stepped step after → invariant after)
    (pulls : Nat) (start : invariant traversal) :
    (pulled pulls traversal).completed = true ∨ invariant (pulled pulls traversal) := by
  induction pulls generalizing traversal with
  | zero => exact .inr start
  | succ pulls inductionHypothesis =>
      rcases isNext : traversal.next with ⟨_ | step, after⟩
      · have isOver := completed_of_none isNext
        rw [pulled, isNext, pulled_of_completed pulls isOver]
        exact .inl isOver
      · obtain ⟨last, holds, turned⟩ := exists_turn_of_run moved start (run_of_next_eq_some isNext)
        rw [pulled, isNext]
        exact inductionHypothesis (stepped holds turned)

/-- After a pull that gives no step none gives any. -/
theorem next_pulled_of_none (none : traversal.next.1 = none) (pulls : Nat) :
    (pulled pulls traversal).next.1 = .none := by
  cases pulls with
  | zero => exact none
  | succ pulls =>
      have isOver := completed_of_none (Prod.ext none rfl : traversal.next = (.none, traversal.next.2))
      rw [pulled, pulled_of_completed pulls isOver, next, if_pos isOver]

/-- Whatever brings the step about, it quotes the cell that the turn looks at. -/
theorem quotes_of_turn_eq_stepped {histogram : Histogram}
    (follows : traversal.position.Follows histogram) (stepped : traversal.turn = .stepped step after) :
    Stop.Quotes histogram ⟨after.position.index, step⟩ := by
  have visited := follows.visited
  have sameIndex := Position.visited_index traversal.position
  obtain ⟨-, -, rfl, rfl⟩ := turn_eq_stepped_iff.mp stepped
  refine ⟨visited.value_eq, ?_, ?_⟩
  · change traversal.position.visited.count = histogram.count traversal.position.visited.index
    rw [follows.visited_count, sameIndex]
  · change traversal.position.visited.percent =
      Histogram.percentOf (histogram.countBefore (traversal.position.visited.index + 1)) _
    rw [Position.percent, Position.total, visited.histogram_eq, follows.visited_reached, sameIndex]

/-! ### From one stop to the next -/

/-- What every turn keeps relates each stop to the one before it, and the first one to where the
traversal set out. The invariant may mention what the last stop left to go on from. -/
theorem isChain_stops_of_turns {α : Type} (invariant : α → Traversal σ → Prop)
    (relation : α → Stop → Prop) (left : Stop → α)
    (moved : ∀ {origin : α} {before after : Traversal σ},
      invariant origin before → before.turn = .moved after → invariant origin after)
    (stepped : ∀ {origin : α} {before after : Traversal σ} {step : Step},
      invariant origin before → before.turn = .stepped step after →
        relation origin ⟨after.position.index, step⟩ ∧
          invariant (left ⟨after.position.index, step⟩) after)
    (pulls : Nat) (origin : α) (start : invariant origin traversal) :
    (∀ first ∈ (stops pulls traversal).head?, relation origin first) ∧
      (stops pulls traversal).IsChain (fun earlier later => relation (left earlier) later) ∧
      ∀ stop ∈ stops pulls traversal, ∃ source, relation source stop := by
  induction pulls generalizing origin traversal with
  | zero => simp [stops]
  | succ pulls inductionHypothesis =>
      rcases isNext : traversal.next with ⟨_ | step, after⟩
      · simp [stops_of_none pulls isNext]
      · obtain ⟨last, holds, turned⟩ := exists_turn_of_run moved start (run_of_next_eq_some isNext)
        obtain ⟨related, holdsAfter⟩ := stepped holds turned
        obtain ⟨head, chain, each⟩ := inductionHypothesis _ holdsAfter
        rw [stops_of_some pulls isNext]
        refine ⟨?_, List.isChain_cons.mpr ⟨head, chain⟩,
          List.forall_mem_cons.mpr ⟨⟨origin, related⟩, each⟩⟩
        rintro first ⟨⟩
        exact related

/-- What every turn keeps holds throughout, and so every stop has what a turn gives it. -/
theorem forall_stops_of_turns (invariant : Traversal σ → Prop) {property : Stop → Prop}
    (moved : ∀ {before after : Traversal σ},
      invariant before → before.turn = .moved after → invariant after)
    (stepped : ∀ {before after : Traversal σ} {step : Step},
      invariant before → before.turn = .stepped step after →
        property ⟨after.position.index, step⟩ ∧ invariant after)
    (pulls : Nat) (start : invariant traversal) : ∀ stop ∈ stops pulls traversal, property stop := by
  obtain ⟨-, -, each⟩ := isChain_stops_of_turns (fun _ : Unit => invariant) (fun _ => property)
    (fun _ => ()) moved stepped pulls () start
  intro stop taken
  exact (each stop taken).choose_spec

/-- The traversal carries on from a cell on which its last step ended at a value, with a number of
values reached. -/
structure Since (histogram : Histogram) (index value reached : Nat) (traversal : Traversal σ) :
    Prop where
  accounts : traversal.position.Accounts histogram
  index_le : index ≤ traversal.position.index
  stepValue_eq : traversal.position.stepValue = value
  stepReached_eq : traversal.position.stepReached = reached

namespace Since

variable {histogram : Histogram} {index value reached : Nat}

theorem ofSchedule (histogram : Histogram) (schedule : Schedule σ) (state : σ) :
    Since histogram 0 0 0 (ofSchedule histogram schedule state) where
  accounts := Position.accounts_origin histogram
  index_le := le_rfl
  stepValue_eq := rfl
  stepReached_eq := rfl

variable (since : Since histogram index value reached traversal)
include since

theorem of_moved (moved : traversal.turn = .moved after) :
    Since histogram index value reached after := by
  obtain ⟨-, -, rfl⟩ := turn_eq_moved_iff.mp moved
  refine ⟨since.accounts.visited.forward (Position.visited_fresh _), ?_, ?_, ?_⟩
  · change index ≤ traversal.position.visited.index + 1
    rw [Position.visited_index]
    exact since.index_le.trans (Nat.le_succ _)
  · change traversal.position.visited.stepValue = value
    rw [Position.visited_stepValue, since.stepValue_eq]
  · change traversal.position.visited.stepReached = reached
    rw [Position.visited_stepReached, since.stepReached_eq]

/-- A turn that takes a step reports the cell it is on, and measures the step from the end of the
last one. -/
theorem of_stepped (stepped : traversal.turn = .stepped step after) :
    index ≤ after.position.index ∧
      (step.previousValue = value ∧ step.added = step.reached - reached) ∧
      Stop.Reports histogram ⟨after.position.index, step⟩ ∧
      Since histogram after.position.index step.value step.reached after := by
  have visited := since.accounts.visited
  have sameIndex := Position.visited_index traversal.position
  obtain ⟨-, -, rfl, rfl⟩ := turn_eq_stepped_iff.mp stepped
  refine ⟨since.index_le.trans_eq sameIndex.symm, ⟨?_, ?_⟩, ⟨?_, ?_, ?_⟩,
    ⟨visited.settled _, le_rfl, rfl, rfl⟩⟩
  · exact (Position.visited_stepValue _).trans since.stepValue_eq
  · change traversal.position.visited.reached - traversal.position.visited.stepReached = _
    rw [Position.visited_stepReached, since.stepReached_eq]
    rfl
  · exact visited.value_eq
  · change traversal.position.visited.reached = histogram.countBefore _
    rw [since.accounts.visited_reached, ← sameIndex]
    rfl
  · change traversal.position.visited.weight = histogram.weightBefore _
    rw [since.accounts.visited_weight, ← sameIndex]
    rfl

theorem of_next (isNext : traversal.next = (some step, after)) :
    index ≤ after.position.index ∧
      (step.previousValue = value ∧ step.added = step.reached - reached) ∧
      Stop.Reports histogram ⟨after.position.index, step⟩ ∧
      Since histogram after.position.index step.value step.reached after := by
  obtain ⟨last, sinceLast, turned⟩ := exists_turn_of_run
    (fun before moved => of_moved before moved) since (run_of_next_eq_some isNext)
  exact sinceLast.of_stepped turned

end Since

/-- From a stop on, the stops of any number of pulls carry on from one another. -/
theorem isChain_stops {histogram : Histogram} {previous : Stop} (pulls : Nat)
    (reports : previous.Reports histogram)
    (since : Since histogram previous.index previous.step.value previous.step.reached traversal) :
    (previous :: stops pulls traversal).IsChain Stop.Continues ∧
      ∀ stop ∈ stops pulls traversal, stop.Reports histogram := by
  have related := isChain_stops_of_turns
    (fun origin traversal => origin.Reports histogram ∧
      Since histogram origin.index origin.step.value origin.step.reached traversal)
    (fun origin stop => origin.Continues stop ∧ stop.Reports histogram) id
    (by
      rintro origin before after ⟨originReports, sinceOrigin⟩ moved
      exact ⟨originReports, sinceOrigin.of_moved moved⟩)
    (by
      rintro origin before after step ⟨originReports, sinceOrigin⟩ stepped
      obtain ⟨ordered, ⟨previousValue, added⟩, stopReports, sinceStop⟩ :=
        sinceOrigin.of_stepped stepped
      have continues := originReports.continues stopReports ordered previousValue added
      exact ⟨⟨continues, stopReports⟩, stopReports, sinceStop⟩)
    pulls previous ⟨reports, since⟩
  obtain ⟨head, chain, each⟩ := related
  refine ⟨?_, fun stop taken => (each stop taken).choose_spec.2⟩
  exact (List.isChain_cons.mpr ⟨head, chain⟩).imp fun _ _ both => both.1

/-- Whatever the schedule and however often it is pulled, the stops of a traversal form a chain: the
first starts at 0 and adds all it has reached, each one later carries on from the one before it, and
so together they add what the last one has reached. -/
theorem stops_chain (histogram : Histogram) (schedule : Schedule σ) (state : σ) (pulls : Nat) :
    (∀ first ∈ (stops pulls (ofSchedule histogram schedule state)).head?,
      first.step.previousValue = 0 ∧ first.step.added = first.step.reached) ∧
    (stops pulls (ofSchedule histogram schedule state)).IsChain Stop.Continues ∧
    (∀ stop ∈ stops pulls (ofSchedule histogram schedule state), stop.Reports histogram) ∧
    ((stops pulls (ofSchedule histogram schedule state)).map (·.step.added)).sum =
      ((stops pulls (ofSchedule histogram schedule state)).getLast?.map (·.step.reached)).getD 0 := by
  have since := Since.ofSchedule histogram schedule state
  generalize ofSchedule histogram schedule state = traversal at since ⊢
  cases pulls with
  | zero => simp [stops]
  | succ pulls =>
      rcases isNext : traversal.next with ⟨_ | step, after⟩
      · have noStops : stops (pulls + 1) traversal = [] := by
          rw [stops, isNext]
          exact stops_of_completed pulls (completed_of_none isNext)
        simp [noStops]
      · obtain ⟨-, ⟨previousValue, added⟩, reports, sinceAfter⟩ := since.of_next isNext
        obtain ⟨chain, allReport⟩ := isChain_stops pulls reports sinceAfter
        rw [Nat.sub_zero] at added
        rw [stops_of_some pulls isNext]
        refine ⟨?_, chain, List.forall_mem_cons.mpr ⟨reports, allReport⟩, ?_⟩
        · rintro first ⟨⟩
          exact ⟨previousValue, added⟩
        · have total := Stop.reached_add_sum_of_chain chain
          rw [List.map_cons, List.sum_cons, List.getLast?_eq_getLast_of_ne_nil (List.cons_ne_nil _ _),
            Option.map_some, Option.getD_some, ← total]
          exact congrArg (· + _) added


end Traversal

end LogLinear
