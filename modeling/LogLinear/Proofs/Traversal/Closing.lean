import LogLinear.Proofs.Histogram.Reachable
import LogLinear.Proofs.Percent.Whole
import LogLinear.Proofs.Traversal.Scale

/-!
Contract: the closing step of a traversal along ticks, and when it is lost.

Owns:
- the outcome of a pull while values are outstanding, at the last of them, and after the closing
  step;
- the totals for which the closing step is taken, which are those that are 100 percent of
  themselves as computed.

Does not own: the arithmetic that says which totals these are. `LogLinear.Proofs.Percent.Whole` has
it.
-/

namespace LogLinear

open Binary64 Histogram

/-- A step that closes a traversal as announced: at 100, on the highest recorded value. -/
structure Step.Closes (histogram : Histogram) (step : Step) : Prop where
  level_eq : step.level = 100.0
  value_eq : step.value = histogram.maximum
  reached_eq : step.reached = histogram.total
  percent_ge : 100.0 ≤ step.percent

namespace Traversal

variable {elementary : Elementary} {histogram : Histogram} {traversal after : Traversal Ticks}
  {step : Step}

/-- Some recorded value is outstanding, or the last one has just been reached. -/
def Pending (histogram : Histogram) (traversal : Traversal Ticks) : Prop :=
  traversal.state.closing = false ∧
    (traversal.position.reached < histogram.total ∨
      traversal.position.fresh = false ∧ traversal.position.reached = histogram.total ∧
        histogram.count traversal.position.index ≠ 0)

/-- The closing step has been tried. -/
def Closed (histogram : Histogram) (traversal : Traversal Ticks) : Prop :=
  traversal.state.closing = true ∧ traversal.position.reached = histogram.total

/-- The percentage at the end of the values, whichever cell is the last. -/
theorem percent_of_reached {position : Position} (follows : position.Follows histogram)
    (whole : position.reached = histogram.total) :
    position.percent = percentOf histogram.total histogram.total := by
  rw [Position.percent, Position.total, follows.histogram_eq, whole]

/-- After the closing step there is nothing left to try. -/
theorem OnTicks.opened_of_closed (onTicks : OnTicks elementary histogram traversal)
    (closed : Closed histogram traversal) : traversal.opened.1 = false := by
  rw [onTicks.opened_of_reached closed.2, beginClosing_of_closing _ closed.1]

theorem OnTicks.next_of_closed (onTicks : OnTicks elementary histogram traversal)
    (closed : Closed histogram traversal) : traversal.next.1 = none := by
  have isOpened := onTicks.opened_of_closed closed
  rw [next_of_live onTicks.live, run_of_finished (turn_of_opened_eq_false isOpened)]

section Sound

variable (sound : histogram.Sound)
include sound

/-- A cell that holds a count and up to which everything is counted is the highest one. -/
theorem maximum_of_reached {index : ℕ} (held : histogram.count index ≠ 0)
    (whole : histogram.countBefore (index + 1) = histogram.total) :
    histogram.layout.ceiling (histogram.start index) = histogram.maximum := by
  symm
  apply maximum_eq_ceiling sound
  refine ⟨held, ?_⟩
  intro other isHeld
  by_contra above
  exact isHeld (histogram.count_eq_zero_of_countBefore_eq (whole.trans sound.total_eq)
    (Nat.lt_of_not_le above))

theorem visited_reached_eq_total {position : Position} (follows : position.Follows histogram)
    (whole : position.reached = histogram.total) : position.visited.reached = histogram.total :=
  le_antisymm (follows.visited.reached_le sound) (whole.ge.trans follows.reached_le_visited)

/-! ### Turns at the end of the values -/

theorem OnTicks.closed_of_stepped (onTicks : OnTicks elementary histogram traversal)
    (whole : traversal.position.reached = histogram.total)
    (stepped : traversal.turn = .stepped step after) : Closed histogram after := by
  have afterWhole := visited_reached_eq_total sound onTicks.follows whole
  rw [← reached_of_turn_eq_stepped stepped] at afterWhole
  obtain ⟨goesOn, -, -, rfl⟩ := turn_eq_stepped_iff.mp stepped
  refine ⟨?_, afterWhole⟩
  rw [onTicks.afterStep_eq]
  exact onTicks.closing_opened whole goesOn

theorem OnTicks.closed_of_moved (onTicks : OnTicks elementary histogram traversal)
    (whole : traversal.position.reached = histogram.total)
    (moved : traversal.turn = .moved after) : Closed histogram after := by
  have afterWhole := visited_reached_eq_total sound onTicks.follows whole
  rw [← reached_of_turn_eq_moved moved] at afterWhole
  obtain ⟨goesOn, -, rfl⟩ := turn_eq_moved_iff.mp moved
  exact ⟨onTicks.closing_opened whole goesOn, afterWhole⟩

/-! ### Turns of a pending traversal -/

/-- At the last recorded value the closing step is taken, if all of the values are 100 percent. -/
theorem OnTicks.closes (onTicks : OnTicks elementary histogram traversal)
    (early : traversal.state.closing = false) (folded : traversal.position.fresh = false)
    (whole : traversal.position.reached = histogram.total)
    (held : histogram.count traversal.position.index ≠ 0)
    (hundred : 100.0 ≤ percentOf histogram.total histogram.total) :
    ∃ step after, traversal.turn = .stepped step after ∧ step.Closes histogram ∧
      Closed histogram after := by
  have follows := onTicks.follows
  have positive := (Nat.pos_of_ne_zero held).trans_le (count_le_total sound _)
  have isOpened := onTicks.opened_of_early whole positive early
  have before : histogram.countBefore (traversal.position.index + 1) = histogram.total := by
    have reached := follows.reached_eq
    rw [folded, whole] at reached
    exact reached.symm
  have visitedWhole : traversal.position.visited.reached = histogram.total :=
    follows.visited_reached.trans before
  have attains : histogram.Attains traversal.opened.2.upcoming traversal.position.index := by
    rw [isOpened, Attains, before]
    exact ⟨held, hundred⟩
  have goesOn : traversal.opened.1 = true := by rw [isOpened]
  have stepped :=
    turn_eq_stepped_iff.mpr ⟨goesOn, onTicks.endsStep_iff.mpr attains, rfl, rfl⟩
  refine ⟨_, _, stepped, ⟨?_, ?_, visitedWhole, ?_⟩, onTicks.closed_of_stepped sound whole stepped⟩
  · rw [onTicks.level_of_stepped stepped, isOpened]
  · change traversal.position.visited.value = histogram.maximum
    rw [follows.visited.value_eq, Position.visited_index, maximum_of_reached sound held before]
  · change 100.0 ≤ traversal.position.visited.percent
    rw [percent_of_reached follows.visited visitedWhole]
    exact hundred

/-- While values are outstanding, a turn that takes no step leaves some outstanding: the last cell
that holds a count takes one. -/
theorem OnScale.outstanding_of_moved (onScale : OnScale elementary histogram traversal)
    (outstanding : traversal.position.reached < histogram.total)
    (hundred : 100.0 ≤ percentOf histogram.total histogram.total)
    (moved : traversal.turn = .moved after) :
    after.state = traversal.state ∧ after.position.reached < histogram.total := by
  have follows := onScale.follows
  have isOpened := onScale.opened_of_outstanding outstanding
  obtain ⟨-, passes, rfl⟩ := turn_eq_moved_iff.mp moved
  refine ⟨by rw [isOpened], ?_⟩
  apply (follows.visited.reached_le sound).lt_of_ne
  intro (visitedWhole : traversal.position.visited.reached = histogram.total)
  have held : histogram.count traversal.position.index ≠ 0 := by
    intro none
    rw [follows.visited_reached_of_count_eq_zero none] at visitedWhole
    exact outstanding.ne visitedWhole
  obtain ⟨value, denotes, inside⟩ := onScale.tick
  have percent := denotes_percentOf sound.total_le (Nat.zero_lt_of_lt outstanding) sound.total_le
  have tick : traversal.state.upcoming ≤ percentOf histogram.total histogram.total :=
    (denotes.le_iff percent).mpr (inside.trans ((denotes_hundred.le_iff percent).mp hundred))
  have attains : histogram.Attains traversal.opened.2.upcoming traversal.position.index := by
    rw [isOpened, Attains, ← follows.visited_reached, visitedWhole]
    exact ⟨held, tick⟩
  rw [onScale.endsStep_iff.mpr attains] at passes
  exact Bool.noConfusion passes

/-- A step while values are outstanding is either before the last recorded value or at it. -/
theorem OnTicks.pending_of_stepped (onTicks : OnTicks elementary histogram traversal)
    (early : traversal.state.closing = false)
    (outstanding : traversal.position.reached < histogram.total)
    (stepped : traversal.turn = .stepped step after) : Pending histogram after := by
  have follows := onTicks.follows
  have isOpened := onTicks.opened_of_outstanding outstanding
  obtain ⟨-, ends, -, rfl⟩ := turn_eq_stepped_iff.mp stepped
  rw [onTicks.endsStep_iff] at ends
  refine ⟨?_, ?_⟩
  · rw [onTicks.afterStep_eq, isOpened]
    exact early
  · change traversal.position.visited.reached < histogram.total ∨
      traversal.position.visited.fresh = false ∧
        traversal.position.visited.reached = histogram.total ∧
          histogram.count traversal.position.visited.index ≠ 0
    rcases (follows.visited.reached_le sound).lt_or_eq with less | whole
    · exact .inl less
    · rw [Position.visited_index]
      exact .inr ⟨Position.visited_fresh _, whole, ends.1⟩

theorem OnTicks.index_lt_size (onTicks : OnTicks elementary histogram traversal)
    (outstanding : traversal.position.reached < histogram.total) :
    traversal.position.index < histogram.counters.size := by
  apply histogram.lt_size_of_countBefore_lt
  rw [← sound.total_eq]
  exact onTicks.follows.countBefore_le.trans_lt outstanding

theorem OnTicks.index_le_max (onTicks : OnTicks elementary histogram traversal)
    (outstanding : traversal.position.reached < histogram.total) :
    traversal.position.index ≤ Word.max := by
  apply histogram.layout.le_max_of_counted
  rw [← sound.size_eq]
  exact onTicks.index_lt_size sound outstanding

/-! ### Pulls -/

/-- A pull from a pending traversal gives a step, after which the traversal is pending again unless
the step has closed it. -/
theorem OnScale.run_of_pending (accurate : elementary.Accurate)
    (hundred : 100.0 ≤ percentOf histogram.total histogram.total)
    (onScale : OnScale elementary histogram traversal) (pending : Pending histogram traversal) :
    ∃ step after, traversal.run = (some step, after) ∧ OnScale elementary histogram after ∧
      (Pending histogram after ∨ step.Closes histogram ∧ Closed histogram after) := by
  obtain ⟨early, outstanding | ⟨folded, whole, held⟩⟩ := pending
  · fun_induction run traversal with
    | case1 before after finished =>
        have goesOn : before.opened.1 = true := by rw [onScale.opened_of_outstanding outstanding]
        exact absurd finished (turn_ne_finished goesOn)
    | case2 before step after stepped =>
        exact ⟨step, after, rfl, onScale.of_stepped accurate stepped,
          .inl (onScale.pending_of_stepped sound early outstanding stepped)⟩
    | case3 before after moved inside inductionHypothesis =>
        obtain ⟨sameState, outstandingAfter⟩ :=
          onScale.outstanding_of_moved sound outstanding hundred moved
        exact inductionHypothesis (onScale.of_moved moved) (sameState ▸ early) outstandingAfter
    | case4 before after moved outside =>
        obtain ⟨-, outstandingAfter⟩ := onScale.outstanding_of_moved sound outstanding hundred moved
        have inside := (onScale.of_moved moved).index_le_max sound outstandingAfter
        rw [index_of_turn_eq_moved moved] at inside
        omega
  · obtain ⟨step, after, stepped, closes, closed⟩ :=
      onScale.closes sound early folded whole held hundred
    exact ⟨step, after, run_of_stepped stepped, onScale.of_stepped accurate stepped,
      .inr ⟨closes, closed⟩⟩

/-- The closing step is the last one, if all of the values are 100 percent. -/
theorem OnScale.getLast?_of_pending (accurate : elementary.Accurate)
    (hundred : 100.0 ≤ percentOf histogram.total histogram.total) {steps : List Step}
    (yields : traversal.Yields steps) (onScale : OnScale elementary histogram traversal)
    (pending : Pending histogram traversal) :
    ∃ last, steps.getLast? = some last ∧ last.Closes histogram := by
  induction yields with
  | ended none =>
      obtain ⟨step, after, yielded, -⟩ := onScale.run_of_pending sound accurate hundred pending
      rw [next_of_live onScale.live, yielded] at none
      exact absurd none (Option.some_ne_none _)
  | @step _ next taken steps isNext rest inductionHypothesis =>
      obtain ⟨step, after, yielded, onScaleAfter, outcome⟩ :=
        onScale.run_of_pending sound accurate hundred pending
      rw [next_of_live onScale.live, yielded] at isNext
      cases isNext
      rcases outcome with pendingAfter | ⟨closes, closed⟩
      · obtain ⟨last, isLast, closes⟩ := inductionHypothesis onScaleAfter pendingAfter
        exact ⟨last, by rw [List.getLast?_cons, isLast]; rfl, closes⟩
      · have noRest := rest.eq_nil (onScaleAfter.next_of_closed closed)
        exact ⟨taken, by rw [noRest]; rfl, closes⟩

/-! ### Totals that fall short -/

/-- Where the total falls short no turn takes a step at 100: no percentage gets there. -/
theorem OnTicks.turn_level_ne (onTicks : OnTicks elementary histogram traversal)
    (short : FallsShort histogram.total) (positive : 0 < histogram.total)
    (stepped : traversal.turn = .stepped step after) : step.level ≠ 100.0 := by
  intro isHundred
  have follows := onTicks.follows
  have isLevel := (onTicks.level_of_stepped stepped).symm.trans isHundred
  obtain ⟨-, ends, -, -⟩ := turn_eq_stepped_iff.mp stepped
  rw [onTicks.endsStep_iff, isLevel, Attains, ← follows.visited_reached] at ends
  have reached := follows.visited.reached_le sound
  have percent := denotes_percentOf (reached.trans sound.total_le) positive sound.total_le
  have above : 100 ≤ share traversal.position.visited.reached histogram.total :=
    (denotes_hundred.le_iff percent).mp ends.2
  have below := (share_self_lt_hundred_iff positive).mpr short
  exact (above.trans (share_mono reached positive)).not_gt below

theorem OnTicks.level_ne_of_yields (onTicks : OnTicks elementary histogram traversal)
    (short : FallsShort histogram.total) (positive : 0 < histogram.total) {steps : List Step}
    (yields : traversal.Yields steps) : ∀ step ∈ steps, step.level ≠ 100.0 := by
  refine yields.forall_steps (OnTicks elementary histogram) ?_ ?_ onTicks
  · intro before after beforeOnTicks moved
    exact beforeOnTicks.of_moved moved
  · intro before after step beforeOnTicks stepped
    have notHundred := beforeOnTicks.turn_level_ne sound short positive stepped
    exact ⟨beforeOnTicks.of_stepped stepped, notHundred⟩

/-- Where the total falls short the pull after the last value gives nothing: the closing step is
begun and passed over. -/
theorem OnTicks.next_of_fallsShort (onTicks : OnTicks elementary histogram traversal)
    (short : FallsShort histogram.total) (positive : 0 < histogram.total)
    (whole : traversal.position.reached = histogram.total)
    (inside : traversal.position.index < Word.max) : traversal.next.1 = none := by
  have follows := onTicks.follows
  cases early : traversal.state.closing with
  | true => exact onTicks.next_of_closed ⟨early, whole⟩
  | false =>
      have isOpened := onTicks.opened_of_early whole positive early
      have goesOn : traversal.opened.1 = true := by rw [isOpened]
      have passes : traversal.schedule.endsStep traversal.opened.2 traversal.position.visited =
          false := by
        rw [← Bool.not_eq_true]
        intro ends
        have stepped := turn_eq_stepped_iff.mpr ⟨goesOn, ends, rfl, rfl⟩
        refine onTicks.turn_level_ne sound short positive stepped ?_
        rw [onTicks.level_of_stepped stepped, isOpened]
      have moved := turn_eq_moved_iff.mpr ⟨goesOn, passes, rfl⟩
      rw [next_of_moved onTicks.live moved inside]
      exact (onTicks.of_moved moved).next_of_closed (onTicks.closed_of_moved sound whole moved)

/-- From the last recorded value on, a traversal is over after one step or none. -/
theorem OnTicks.exists_yields_of_reached (onTicks : OnTicks elementary histogram traversal)
    (early : traversal.state.closing = false) (folded : traversal.position.fresh = false)
    (whole : traversal.position.reached = histogram.total)
    (held : histogram.count traversal.position.index ≠ 0)
    (inside : traversal.position.index < Word.max) : ∃ steps, traversal.Yields steps := by
  have positive := (Nat.pos_of_ne_zero held).trans_le (count_le_total sound _)
  by_cases short : FallsShort histogram.total
  · exact ⟨[], .ended (onTicks.next_of_fallsShort sound short positive whole inside)⟩
  · have hundred := (hundred_le_percentOf_self_iff positive sound.total_le).mpr short
    obtain ⟨step, after, stepped, -, closed⟩ := onTicks.closes sound early folded whole held hundred
    have none := (onTicks.of_stepped stepped).next_of_closed closed
    exact ⟨[step], .of_stepped onTicks.live stepped (.ended none)⟩

end Sound

/-! ### Whole traversals -/

/-- The least value of a layout, recorded a number of times at once. -/
def lone (count : ℕ) : Histogram :=
  kept (Histogram.empty .dyadic) ((Histogram.empty .dyadic).recordMany 0 count)

theorem lone_reachable (count : ℕ) : (lone count).Reachable := .recordedMany (.empty _) 0 count

/-- The traversal over it, with two ticks to a half. -/
def overLone (elementary : Elementary) (count : ℕ) : Traversal Ticks :=
  ofSchedule (lone count) (Schedule.ticks elementary) (Ticks.start 2)

theorem overTicks_lone (elementary : Elementary) (count : ℕ) :
    overTicks elementary (lone count) 2 = .ok (overLone elementary count) := rfl

theorem onTicks_overLone (elementary : Elementary) {count : ℕ}
    (recorded : (lone count).isEmpty = false) :
    OnTicks elementary (lone count) (overLone elementary count) :=
  ⟨rfl, Position.follows_origin _, recorded⟩

/-- The step at tick 0 reaches everything, and so at most one step follows it. -/
theorem exists_yields_overLone (elementary : Elementary) {count : ℕ}
    (recorded : (lone count).isEmpty = false)
    (counted : (lone count).count 0 = (lone count).total) :
    ∃ step steps, (overLone elementary count).Yields (step :: steps) := by
  have sound := sound_of_reachable (lone_reachable count)
  have positive := total_pos_of_recorded recorded
  have held : (lone count).count 0 ≠ 0 := counted.trans_ne positive.ne'
  have onTicks := onTicks_overLone elementary recorded
  have isOpened := onTicks.opened_of_outstanding positive
  have whole : (overLone elementary count).position.visited.reached = (lone count).total := by
    rw [onTicks.follows.visited_reached, countBefore_succ]
    exact (congrArg₂ (· + ·) (lone count).countBefore_zero counted).trans (Nat.zero_add _)
  have percent := denotes_percentOf sound.total_le positive sound.total_le
  have tick : 0.0 ≤ percentOf (lone count).total (lone count).total :=
    (denotes_zero.le_iff percent).mpr percent.nonneg
  have attains : (lone count).Attains (overLone elementary count).opened.2.upcoming
      (overLone elementary count).position.index := by
    rw [isOpened, Attains, ← onTicks.follows.visited_reached, whole]
    exact ⟨held, tick⟩
  have stepped := turn_eq_stepped_iff.mpr
    ⟨by rw [isOpened], onTicks.endsStep_iff.mpr attains, rfl, rfl⟩
  obtain ⟨steps, yields⟩ := (onTicks.of_stepped stepped).exists_yields_of_reached sound
    (by rw [onTicks.afterStep_eq, isOpened]; rfl) (Position.visited_fresh _) whole held
    ((Position.visited_index _).trans_lt (by decide : 0 < Word.max))
  exact ⟨_, steps, .of_stepped onTicks.live stepped yields⟩

/-- A traversal along ticks that runs to its end closes with a step at exactly 100, on the highest
recorded value, if and only if the total is 100 percent of itself as computed. Otherwise no step is
taken at 100 at all. -/
theorem overTicks_closes_iff (reachable : histogram.Reachable) (recorded : histogram.isEmpty = false)
    (accurate : elementary.Accurate) {perHalf : ℕ} (word : perHalf ≤ Word.max)
    (made : overTicks elementary histogram perHalf = .ok traversal) {steps : List Step}
    (yields : traversal.Yields steps) :
    ((∃ last, steps.getLast? = some last ∧ last.Closes histogram) ↔ ¬ FallsShort histogram.total) ∧
      (FallsShort histogram.total → ∀ step ∈ steps, step.level ≠ 100.0) := by
  have sound := sound_of_reachable reachable
  have positive := total_pos_of_recorded recorded
  have onScale := onScale_of_overTicks word recorded made
  refine ⟨⟨?_, ?_⟩, ?_⟩
  · rintro ⟨last, isLast, closes⟩ short
    have member := List.mem_of_getLast? isLast
    exact onScale.level_ne_of_yields sound short positive yields last member closes.level_eq
  · intro whole
    have hundred := (hundred_le_percentOf_self_iff positive sound.total_le).mpr whole
    have pending : Pending histogram traversal := by
      unfold overTicks at made
      split_ifs at made
      cases made
      exact ⟨rfl, .inl positive⟩
    exact onScale.getLast?_of_pending sound accurate hundred yields pending
  · intro short
    exact onScale.level_ne_of_yields sound short positive yields

theorem lone_closes :
    ∃ traversal steps, overTicks Elementary.rounded (lone 1) 2 = .ok traversal ∧
      traversal.Yields steps ∧
      ∃ last, steps.getLast? = some last ∧ last.Closes (lone 1) := by
  have recorded : (lone 1).isEmpty = false := by decide +kernel
  have whole : ¬ FallsShort (lone 1).total := not_fallsShort_of_lt (by decide +kernel)
  obtain ⟨step, steps, yields⟩ :=
    exists_yields_overLone Elementary.rounded recorded (by decide +kernel)
  have outcome := overTicks_closes_iff (lone_reachable 1) recorded Elementary.rounded_accurate
    (by decide : 2 ≤ Word.max) (overTicks_lone _ 1) yields
  exact ⟨_, _, overTicks_lone _ 1, yields, outcome.1.mpr whole⟩

/-- No step is taken at 100 over one value recorded 360287970189641 times. -/
theorem lone_passes_hundred :
    ∃ traversal step steps, (lone 360287970189641).Reachable ∧
      (lone 360287970189641).isEmpty = false ∧
      overTicks Elementary.machine (lone 360287970189641) 2 = .ok traversal ∧
      traversal.Yields (step :: steps) ∧ ∀ taken ∈ step :: steps, taken.level ≠ 100.0 := by
  have reachable := lone_reachable 360287970189641
  have recorded : (lone 360287970189641).isEmpty = false := by decide +kernel
  have short : FallsShort (lone 360287970189641).total := by decide +kernel
  have onTicks := onTicks_overLone Elementary.machine recorded
  obtain ⟨step, steps, yields⟩ :=
    exists_yields_overLone Elementary.machine recorded (by decide +kernel)
  exact ⟨_, step, steps, reachable, recorded, overTicks_lone _ _, yields,
    onTicks.level_ne_of_yields (sound_of_reachable reachable) short
      (total_pos_of_recorded recorded) yields⟩

end Traversal

end LogLinear
