import LogLinear.Proofs.Histogram.Highest
import LogLinear.Proofs.Ticks.Progress
import LogLinear.Proofs.Traversal.Closing

/-!
Contract: when a traversal along ticks comes to its end.

Owns:
- the traversals that end after some pulls, and those that give a step at every pull;
- the condition that ticks get past the percentage below the highest cell, with which a traversal
  ends and without which it takes steps on one cell for ever.

Does not own: how far the ticks get. `LogLinear.Proofs.Ticks.Progress` has that.
-/

namespace LogLinear

open Binary64 Histogram

/-! ### Pulls -/

namespace Traversal

section Pulls

variable {σ : Type} {histogram : Histogram} {traversal after : Traversal σ} {step : Step}

/-- After some pulls there is no further step, and every recorded value has been reached. -/
def Ends (histogram : Histogram) (traversal : Traversal σ) : Prop :=
  ∃ pulls last, (pulled pulls traversal).next = (none, last) ∧ last.completed = true ∧
    last.position.reached = histogram.total

/-- Every pull gives a step. -/
def Endless (traversal : Traversal σ) : Prop :=
  ∀ pulls, ∃ step, (pulled pulls traversal).next.1 = some step

theorem Endless.not_ends (endless : traversal.Endless) : ¬ traversal.Ends histogram := by
  rintro ⟨pulls, last, isNext, -⟩
  obtain ⟨step, isStep⟩ := endless pulls
  rw [isNext] at isStep
  exact Option.some_ne_none step isStep.symm

theorem Ends.of_finished (live : traversal.completed = false)
    (finished : traversal.turn = .finished after)
    (whole : after.position.reached = histogram.total) : traversal.Ends histogram := by
  refine ⟨0, after, ?_, ?_, whole⟩
  · rw [pulled, next_of_live live, run_of_finished finished]
  · obtain ⟨-, rfl⟩ := turn_eq_finished_iff.mp finished
    rfl

theorem Ends.of_stepped (live : traversal.completed = false)
    (stepped : traversal.turn = .stepped step after) (ends : after.Ends histogram) :
    traversal.Ends histogram := by
  obtain ⟨pulls, last, isNext, isOver⟩ := ends
  refine ⟨pulls + 1, last, ?_, isOver⟩
  rw [pulled, next_of_live live, run_of_stepped stepped]
  exact isNext

/-- A move is part of the pull that it is made in, unless indices run out with it. -/
theorem Ends.of_moved (live : traversal.completed = false)
    (moved : traversal.turn = .moved after) (ends : after.Ends histogram)
    (inside : traversal.position.index < Word.max ∨ after.position.reached = histogram.total) :
    traversal.Ends histogram := by
  have liveAfter := (completed_of_turn_eq_moved moved).trans live
  by_cases below : traversal.position.index < Word.max
  · have same : traversal.next = after.next := by
      rw [next_of_live live, next_of_live liveAfter, run_of_moved moved below]
    obtain ⟨pulls, last, isNext, isOver⟩ := ends
    refine ⟨pulls, last, ?_, isOver⟩
    cases pulls with
    | zero => exact same.trans isNext
    | succ pulls =>
        rw [pulled] at isNext ⊢
        rw [same]
        exact isNext
  · refine ⟨0, { after with completed := true }, ?_, rfl, inside.resolve_left below⟩
    rw [pulled, next_of_live live, run]
    split <;> simp_all

end Pulls

/-! ### After the last value -/

variable {elementary : Elementary} {histogram : Histogram} {traversal after : Traversal Ticks}
  {step : Step}

theorem OnTicks.ends_of_closed (onTicks : OnTicks elementary histogram traversal)
    (closed : Closed histogram traversal) : traversal.Ends histogram := by
  have isOpened := onTicks.opened_of_closed closed
  exact .of_finished onTicks.live (turn_of_opened_eq_false isOpened) closed.2

section Sound

variable (sound : histogram.Sound)
include sound

/-- Nothing below the highest cell completes the values. -/
theorem visited_reached_lt {cell : ℕ}
    (below : histogram.countBefore (cell + 1) = histogram.belowHighest)
    (recorded : 0 < histogram.total) {position : Position} (follows : position.Follows histogram)
    (before : position.index ≤ cell) : position.visited.reached < histogram.total := by
  rw [follows.visited_reached]
  apply (histogram.countBefore_mono (Nat.succ_le_succ before)).trans_lt
  rw [Nat.succ_eq_add_one, below]
  exact belowHighest_lt sound recorded

/-- Once every value has been reached there is at most the closing step left, taken or not. -/
theorem OnTicks.ends_of_reached (onTicks : OnTicks elementary histogram traversal)
    (recorded : 0 < histogram.total) (whole : traversal.position.reached = histogram.total) :
    traversal.Ends histogram := by
  cases early : traversal.state.closing with
  | true => exact onTicks.ends_of_closed ⟨early, whole⟩
  | false =>
      have isOpened := onTicks.opened_of_early whole recorded early
      cases turned : traversal.turn with
      | finished after =>
          have goesOn : traversal.opened.1 = true := by rw [isOpened]
          exact absurd turned (turn_ne_finished goesOn)
      | stepped step after =>
          have closed := onTicks.closed_of_stepped sound whole turned
          apply Ends.of_stepped onTicks.live turned
          exact (onTicks.of_stepped turned).ends_of_closed closed
      | moved after =>
          have closed := onTicks.closed_of_moved sound whole turned
          apply Ends.of_moved onTicks.live turned _ (.inr closed.2)
          exact (onTicks.of_moved turned).ends_of_closed closed

end Sound

/-! ### While values are outstanding -/

/-- A traversal with values outstanding, and its upcoming tick by number. -/
structure Underway (elementary : Elementary) (histogram : Histogram) (perHalf number : ℕ)
    (traversal : Traversal Ticks) : Prop extends OnTicks elementary histogram traversal where
  perHalf_eq : traversal.state.perHalf = perHalf
  upcoming_eq : traversal.state.upcoming = Ticks.nth elementary perHalf number
  early : traversal.state.closing = false
  outstanding : traversal.position.reached < histogram.total

namespace Underway

variable {perHalf number : ℕ} (underway : Underway elementary histogram perHalf number traversal)
include underway

theorem opened_eq : traversal.opened = (true, traversal.state) :=
  underway.opened_of_outstanding underway.outstanding

theorem of_moved (moved : traversal.turn = .moved after)
    (outstanding : after.position.reached < histogram.total) :
    Underway elementary histogram perHalf number after := by
  refine ⟨underway.toOnTicks.of_moved moved, ?_, ?_, ?_, outstanding⟩
  all_goals
    obtain ⟨-, -, rfl⟩ := turn_eq_moved_iff.mp moved
    rw [underway.opened_eq]
  · exact underway.perHalf_eq
  · exact underway.upcoming_eq
  · exact underway.early

/-- A step is taken at the upcoming tick, on a cell that holds a count. -/
theorem of_stepped (stepped : traversal.turn = .stepped step after) :
    (0 < after.position.reached ∧
      Ticks.nth elementary perHalf number ≤ percentOf after.position.reached histogram.total) ∧
    (after.position.reached < histogram.total →
      Underway elementary histogram perHalf (number + 1) after) := by
  have onTicksAfter := underway.toOnTicks.of_stepped stepped
  have isReached := reached_of_turn_eq_stepped stepped
  rw [underway.follows.visited_reached] at isReached
  obtain ⟨-, ends, -, rfl⟩ := turn_eq_stepped_iff.mp stepped
  rw [underway.endsStep_iff, underway.opened_eq, underway.upcoming_eq] at ends
  refine ⟨?_, ?_⟩
  · rw [isReached]
    refine ⟨?_, ends.2⟩
    rw [countBefore_succ]
    exact Nat.add_pos_right _ (Nat.pos_of_ne_zero ends.1)
  · intro outstanding
    refine ⟨onTicksAfter, ?_, ?_, ?_, outstanding⟩
    all_goals rw [underway.afterStep_eq, underway.opened_eq]
    · exact underway.perHalf_eq
    · change Ticks.following elementary traversal.state.perHalf traversal.state.upcoming = _
      rw [underway.perHalf_eq, underway.upcoming_eq]
      rfl
    · exact underway.early

end Underway

theorem denotes_percentOf_below (sound : histogram.Sound) (recorded : 0 < histogram.total) :
    Denotes (percentOf histogram.belowHighest histogram.total)
      (share histogram.belowHighest histogram.total) := by
  have belowWord := (belowHighest_lt sound recorded).le.trans sound.total_le
  exact denotes_percentOf belowWord recorded sound.total_le

section Accurate

variable {perHalf number : ℕ} (sound : histogram.Sound) (accurate : elementary.Accurate)
  (positive : 0 < perHalf) (word : perHalf ≤ Word.max)
include sound accurate positive word

/-- A step that leaves values outstanding is taken at a tick which does not get past the percentage
below the highest cell. -/
theorem Underway.number_lt {last : ℕ}
    (passes : 0 < histogram.belowHighest →
      percentOf histogram.belowHighest histogram.total < Ticks.nth elementary perHalf last)
    (underway : Underway elementary histogram perHalf number traversal)
    (stepped : traversal.turn = .stepped step after)
    (outstanding : after.position.reached < histogram.total) : number < last := by
  obtain ⟨⟨some, tick⟩, -⟩ := underway.of_stepped stepped
  have below : after.position.reached ≤ histogram.belowHighest := by
    rw [(underway.toOnTicks.of_stepped stepped).follows.reached_eq] at outstanding ⊢
    exact countBefore_le_belowHighest sound outstanding
  have recorded := Nat.zero_lt_of_lt outstanding
  have reachedWord := outstanding.le.trans sound.total_le
  have reachedDenotes := denotes_percentOf reachedWord recorded sound.total_le
  have belowDenotes := denotes_percentOf_below sound recorded
  have numberDenotes := (Ticks.denotes_nth accurate positive word number).1
  have lastDenotes := (Ticks.denotes_nth accurate positive word last).1
  apply (Ticks.valueOf_nth_mono accurate positive word).reflect_lt
  calc valueOf (Ticks.nth elementary perHalf number)
      ≤ share after.position.reached histogram.total := (numberDenotes.le_iff reachedDenotes).mp tick
    _ ≤ share histogram.belowHighest histogram.total := share_mono below recorded
    _ < valueOf (Ticks.nth elementary perHalf last) :=
        (belowDenotes.lt_iff lastDenotes).mp (passes (some.trans_le below))

/-- If the ticks get past the percentage below the highest cell, then every turn leads towards the
end: a step uses up one of the ticks before, and a move one of the cells. -/
theorem Underway.ends {last : ℕ}
    (passes : 0 < histogram.belowHighest →
      percentOf histogram.belowHighest histogram.total < Ticks.nth elementary perHalf last)
    (underway : Underway elementary histogram perHalf number traversal) :
    traversal.Ends histogram := by
  induction left : (last - number) + (histogram.counters.size - traversal.position.index)
    using Nat.strong_induction_on generalizing number traversal with
  | h left inductionHypothesis =>
    have recorded := Nat.zero_lt_of_lt underway.outstanding
    cases turned : traversal.turn with
    | finished after =>
        have goesOn : traversal.opened.1 = true := by rw [underway.opened_eq]
        exact absurd turned (turn_ne_finished goesOn)
    | stepped step after =>
        apply Ends.of_stepped underway.live turned
        by_cases outstanding : after.position.reached < histogram.total
        · have before := underway.number_lt sound accurate positive word passes turned outstanding
          have sameIndex := index_of_turn_eq_stepped turned
          refine inductionHypothesis _ ?_ ((underway.of_stepped turned).2 outstanding) rfl
          omega
        · have onTicksAfter := underway.toOnTicks.of_stepped turned
          have whole := onTicksAfter.follows.reached_eq_total sound outstanding
          exact onTicksAfter.ends_of_reached sound recorded whole
    | moved after =>
        have onTicksAfter := underway.toOnTicks.of_moved turned
        have nextIndex := index_of_turn_eq_moved turned
        by_cases outstanding : after.position.reached < histogram.total
        · have counted := underway.index_lt_size sound underway.outstanding
          have inside := onTicksAfter.index_le_max sound outstanding
          apply Ends.of_moved underway.live turned _ (.inl (by omega))
          refine inductionHypothesis _ ?_ (underway.of_moved turned outstanding) rfl
          omega
        · have whole := onTicksAfter.follows.reached_eq_total sound outstanding
          apply Ends.of_moved underway.live turned _ (.inr whole)
          exact onTicksAfter.ends_of_reached sound recorded whole

/-! ### Steps without end -/

section Stuck

variable {cell : ℕ} (held : histogram.count cell ≠ 0)
  (below : histogram.countBefore (cell + 1) = histogram.belowHighest)
  (stuck : ∀ last, ¬ percentOf histogram.belowHighest histogram.total <
    Ticks.nth elementary perHalf last)
include held below stuck

/-- If no tick gets past the percentage below the highest cell, then a step is taken on the last cell
below, whatever the upcoming tick is. -/
theorem Underway.index_lt (underway : Underway elementary histogram perHalf number traversal)
    (before : traversal.position.index ≤ cell) (moved : traversal.turn = .moved after) :
    traversal.position.index < cell := by
  apply before.lt_of_ne
  intro isCell
  have recorded := Nat.zero_lt_of_lt underway.outstanding
  have belowDenotes := denotes_percentOf_below sound recorded
  have tickDenotes := (Ticks.denotes_nth accurate positive word number).1
  have tick : Ticks.nth elementary perHalf number ≤
      percentOf histogram.belowHighest histogram.total :=
    (tickDenotes.le_iff belowDenotes).mpr
      (not_lt.mp (mt (belowDenotes.lt_iff tickDenotes).mpr (stuck number)))
  obtain ⟨-, passes, -⟩ := turn_eq_moved_iff.mp moved
  have attains : histogram.Attains traversal.opened.2.upcoming traversal.position.index := by
    rw [underway.opened_eq, underway.upcoming_eq, isCell, Attains, below]
    exact ⟨held, tick⟩
  rw [underway.endsStep_iff.mpr attains] at passes
  exact Bool.noConfusion passes

/-- A pull gives a step then, and does not lead beyond that cell. -/
theorem Underway.exists_step (underway : Underway elementary histogram perHalf number traversal)
    (before : traversal.position.index ≤ cell) :
    ∃ step after, traversal.next = (some step, after) ∧ after.position.index ≤ cell ∧
      Underway elementary histogram perHalf (number + 1) after := by
  have recorded := Nat.zero_lt_of_lt underway.outstanding
  rw [next_of_live underway.live]
  fun_induction run traversal with
  | case1 earlier after finished =>
      have goesOn : earlier.opened.1 = true := by rw [underway.opened_eq]
      exact absurd finished (turn_ne_finished goesOn)
  | case2 earlier step after stepped =>
      have outstanding := visited_reached_lt sound below recorded underway.follows before
      rw [← reached_of_turn_eq_stepped stepped] at outstanding
      refine ⟨step, after, rfl, ?_, (underway.of_stepped stepped).2 outstanding⟩
      rw [index_of_turn_eq_stepped stepped]
      exact before
  | case3 earlier after moved inside inductionHypothesis =>
      have outstanding := visited_reached_lt sound below recorded underway.follows before
      rw [← reached_of_turn_eq_moved moved] at outstanding
      apply inductionHypothesis (underway.of_moved moved outstanding)
      rw [index_of_turn_eq_moved moved]
      exact underway.index_lt sound accurate positive word held below stuck before moved
  | case4 earlier after moved outside =>
      have counted : cell < histogram.counters.size := lt_size_of_getD_ne_zero held
      have cellWord := histogram.layout.le_max_of_counted (sound.size_eq ▸ counted)
      have ahead :=
        underway.index_lt sound accurate positive word held below stuck before moved
      omega

theorem Underway.endless (underway : Underway elementary histogram perHalf number traversal)
    (before : traversal.position.index ≤ cell) : traversal.Endless := by
  intro pulls
  induction pulls generalizing number traversal with
  | zero =>
      obtain ⟨step, after, isNext, -⟩ :=
        underway.exists_step sound accurate positive word held below stuck before
      exact ⟨step, by rw [pulled, isNext]⟩
  | succ pulls inductionHypothesis =>
      obtain ⟨step, after, isNext, beforeAfter, underwayAfter⟩ :=
        underway.exists_step sound accurate positive word held below stuck before
      rw [pulled, isNext]
      exact inductionHypothesis underwayAfter beforeAfter

end Stuck

end Accurate

/-! ### Whole traversals -/

/-- Some tick is beyond the percentage that the values below the highest cell are of all, if there
are such values. -/
def TicksPass (elementary : Elementary) (perHalf : Nat) (histogram : Histogram) : Prop :=
  0 < histogram.belowHighest → ∃ number,
    percentOf histogram.belowHighest histogram.total < Ticks.nth elementary perHalf number

/-- Ticks pass if the values of the highest cell are not too few for the number of ticks in each
half. -/
theorem ticksPass_of_le {perHalf : ℕ} (sound : histogram.Sound) (accurate : elementary.Accurate)
    (positive : 0 < perHalf) (word : perHalf ≤ Word.max)
    (enough : perHalf * histogram.total ≤ 2 ^ 50 * histogram.countOf histogram.maximum) :
    TicksPass elementary perHalf histogram := by
  intro crowded
  have recorded : 0 < histogram.total := crowded.trans_le (Nat.sub_le _ _)
  have inside : histogram.countOf histogram.maximum ≤ histogram.total := count_le_total sound _
  exact Ticks.exists_percentOf_lt_nth accurate positive word inside recorded sound.total_le enough

section Made

variable {perHalf : ℕ} (made : overTicks elementary histogram perHalf = .ok traversal)
include made

theorem underway_of_made (recorded : 0 < histogram.total) :
    Underway elementary histogram perHalf 0 traversal ∧ traversal.position.index = 0 := by
  have live : histogram.isEmpty = false := by
    rw [isEmpty, decide_eq_false_iff_not]
    exact recorded.ne'
  obtain ⟨-, rfl⟩ := overTicks_eq_ok_iff.mp made
  exact ⟨⟨⟨rfl, Position.follows_origin histogram, live⟩, rfl, rfl, rfl, recorded⟩, rfl⟩

theorem ends_of_empty (empty : histogram.total = 0) : traversal.Ends histogram := by
  have isOver : traversal.completed = true := by
    obtain ⟨-, rfl⟩ := overTicks_eq_ok_iff.mp made
    exact decide_eq_true empty
  refine ⟨0, traversal, ?_, isOver, ?_⟩
  · rw [pulled, next, if_pos isOver]
  · obtain ⟨-, rfl⟩ := overTicks_eq_ok_iff.mp made
    exact empty.symm

variable (sound : histogram.Sound) (accurate : elementary.Accurate) (word : perHalf ≤ Word.max)
include sound accurate word

theorem ends_of_ticksPass (passes : TicksPass elementary perHalf histogram) :
    traversal.Ends histogram := by
  obtain ⟨positive, -⟩ := overTicks_eq_ok_iff.mp made
  rcases histogram.total.eq_zero_or_pos with empty | recorded
  · exact ends_of_empty made empty
  · have ⟨last, passesLast⟩ : ∃ last, 0 < histogram.belowHighest →
        percentOf histogram.belowHighest histogram.total < Ticks.nth elementary perHalf last := by
      by_cases crowded : 0 < histogram.belowHighest
      · obtain ⟨last, isPast⟩ := passes crowded
        exact ⟨last, fun _ => isPast⟩
      · exact ⟨0, fun isCrowded => absurd isCrowded crowded⟩
    have underway := (underway_of_made made recorded).1
    exact underway.ends sound accurate positive word passesLast

theorem endless_of_not_ticksPass (remains : ¬ TicksPass elementary perHalf histogram) :
    traversal.Endless := by
  obtain ⟨positive, -⟩ := overTicks_eq_ok_iff.mp made
  rw [TicksPass, Classical.not_imp, not_exists] at remains
  obtain ⟨crowded, stuck⟩ := remains
  have recorded : 0 < histogram.total := crowded.trans_le (Nat.sub_le _ _)
  obtain ⟨cell, held, below⟩ := exists_last_below sound crowded
  obtain ⟨underway, start⟩ := underway_of_made made recorded
  apply underway.endless sound accurate positive word held below stuck
  rw [start]
  exact Nat.zero_le _

omit sound in
/-- A traversal along ticks comes to its end, with every recorded value reached, if and only if some
tick is beyond the percentage that the values below the highest cell are of all; otherwise every
pull gives a step. Some tick is, whenever the values of the highest cell are not so few that rounding
stops the ticks before. -/
theorem overTicks_ends_iff (reachable : histogram.Reachable) :
    (traversal.Ends histogram ↔ TicksPass elementary perHalf histogram) ∧
    (¬ traversal.Ends histogram → traversal.Endless) ∧
    (perHalf * histogram.total ≤ 2 ^ 50 * histogram.countOf histogram.maximum →
      traversal.Ends histogram) := by
  have sound := sound_of_reachable reachable
  obtain ⟨positive, -⟩ := overTicks_eq_ok_iff.mp made
  refine ⟨⟨?_, ?_⟩, ?_, ?_⟩
  · intro ends
    by_contra remains
    exact (endless_of_not_ticksPass made sound accurate word remains).not_ends ends
  · exact ends_of_ticksPass made sound accurate word
  · intro goesOn
    apply endless_of_not_ticksPass made sound accurate word
    exact mt (ends_of_ticksPass made sound accurate word) goesOn
  · intro enough
    apply ends_of_ticksPass made sound accurate word
    exact ticksPass_of_le sound accurate positive word enough

end Made

theorem sample_ends : ∃ traversal,
    overTicks Elementary.rounded .sample 2 = .ok traversal ∧ traversal.Ends .sample := by
  have outcome := overTicks_ends_iff rfl Elementary.rounded_accurate (by decide : 2 ≤ Word.max)
    Histogram.sample_reachable
  exact ⟨_, rfl, outcome.2.2 (by decide +kernel)⟩

/-- The least value of a layout, recorded so often that it is 100 percent of all as computed, and one
greater value. -/
def crowded : Histogram := kept (lone (2 ^ 60)) ((lone (2 ^ 60)).record 2)

theorem crowded_reachable : crowded.Reachable := .recorded (lone_reachable (2 ^ 60)) 2

/-- The traversal over them takes steps on the least value without end, at ticks up to 100. -/
theorem crowded_endless : ∃ traversal, crowded.Reachable ∧
    overTicks Elementary.rounded crowded 1 = .ok traversal ∧ traversal.Endless ∧
    ¬ traversal.Ends crowded := by
  have sound := sound_of_reachable crowded_reachable
  have isBelow : 0 < crowded.belowHighest := by decide +kernel
  have hundred : 100.0 ≤ percentOf crowded.belowHighest crowded.total := by decide +kernel
  have remains : ¬ TicksPass Elementary.rounded 1 crowded := by
    intro passes
    obtain ⟨last, isPast⟩ := passes isBelow
    have recorded : 0 < crowded.total := isBelow.trans_le (Nat.sub_le _ _)
    have percent := denotes_percentOf_below sound recorded
    obtain ⟨tick, inside⟩ :=
      Ticks.denotes_nth Elementary.rounded_accurate Nat.one_pos Word.one_le_max last
    have beyond := (percent.lt_iff tick).mp isPast
    exact (inside.trans ((denotes_hundred.le_iff percent).mp hundred)).not_gt beyond
  have endless :=
    endless_of_not_ticksPass rfl sound Elementary.rounded_accurate Word.one_le_max remains
  exact ⟨_, crowded_reachable, rfl, endless, endless.not_ends⟩

end Traversal

end LogLinear
