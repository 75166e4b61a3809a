import LogLinear.Proofs.Ticks.Following
import LogLinear.Proofs.Traversal.Walk

/-!
Contract: traversals along ticks, turn by turn.

Owns:
- the cells that attain a level, which are those that take a step at it;
- the state in which a turn finds the schedule, while values are outstanding and afterwards;
- the invariants: the traversal follows its histogram, and its tick is on the scale.

Does not own: when such a traversal is over. `LogLinear.Proofs.Traversal.Closing` has that.
-/

namespace LogLinear

/-- A cell that holds a count attains a level if the percentage up to it is not below the level. -/
def Histogram.Attains (histogram : Histogram) (level : Float) (index : ℕ) : Prop :=
  histogram.count index ≠ 0 ∧
    level ≤ Histogram.percentOf (histogram.countBefore (index + 1)) histogram.total

namespace Traversal

open Binary64

variable {elementary : Elementary} {histogram : Histogram} {traversal after : Traversal Ticks}
  {step : Step}

/-- A traversal of a histogram along ticks which is not over yet. -/
structure OnTicks (elementary : Elementary) (histogram : Histogram)
    (traversal : Traversal Ticks) : Prop where
  schedule_eq : traversal.schedule = Schedule.ticks elementary
  follows : traversal.position.Follows histogram
  live : traversal.completed = false

/-- Such a traversal with its tick not above 100. -/
structure OnScale (elementary : Elementary) (histogram : Histogram)
    (traversal : Traversal Ticks) : Prop extends OnTicks elementary histogram traversal where
  perHalf_pos : 0 < traversal.state.perHalf
  perHalf_le : traversal.state.perHalf ≤ Word.max
  tick : ∃ value, Denotes traversal.state.upcoming value ∧ value ≤ 100

/-! ### The schedule -/

theorem ticks_endsStep_iff {ticks : Ticks} {position : Position} :
    ticks.endsStep position = true ↔ position.count ≠ 0 ∧ ticks.upcoming ≤ position.percent := by
  simp [Ticks.endsStep]

theorem beginClosing_of_closing (ticks : Ticks) {position : Position}
    (closing : ticks.closing = true) : ticks.beginClosing position = (false, ticks) := by
  rw [Ticks.beginClosing, Ticks.hasClosing, closing]
  rfl

theorem closing_of_beginClosing {ticks : Ticks} {position : Position}
    (goesOn : (ticks.beginClosing position).1 = true) :
    (ticks.beginClosing position).2.closing = true := by
  unfold Ticks.beginClosing at goesOn ⊢
  split
  · rfl
  · simp_all

theorem beginClosing_of_early (ticks : Ticks) {position : Position}
    (early : ticks.closing = false) (positive : 0 < position.total) :
    ticks.beginClosing position = (true, { ticks with upcoming := 100.0, closing := true }) := by
  rw [Ticks.beginClosing, Ticks.hasClosing, early, decide_eq_true positive]
  rfl

namespace OnTicks

variable (onTicks : OnTicks elementary histogram traversal)
include onTicks

theorem endsStep_eq :
    traversal.schedule.endsStep traversal.opened.2 traversal.position.visited =
      traversal.opened.2.endsStep traversal.position.visited := by
  rw [onTicks.schedule_eq]
  rfl

theorem level_eq (position : Position) :
    traversal.schedule.level traversal.opened.2 position = traversal.opened.2.upcoming := by
  rw [onTicks.schedule_eq]
  rfl

theorem level_of_stepped (stepped : traversal.turn = .stepped step after) :
    step.level = traversal.opened.2.upcoming := by
  obtain ⟨-, -, rfl, -⟩ := turn_eq_stepped_iff.mp stepped
  exact onTicks.level_eq _

theorem afterStep_eq (position : Position) :
    traversal.schedule.afterStep traversal.opened.2 position =
      traversal.opened.2.afterStep elementary := by
  rw [onTicks.schedule_eq]
  rfl

/-- A turn takes a step if its cell attains the tick that it begins with. -/
theorem endsStep_iff :
    traversal.schedule.endsStep traversal.opened.2 traversal.position.visited = true ↔
      histogram.Attains traversal.opened.2.upcoming traversal.position.index := by
  have follows := onTicks.follows
  rw [onTicks.endsStep_eq, ticks_endsStep_iff, follows.visited_count, Position.percent,
    Position.total, follows.visited.histogram_eq, follows.visited_reached]
  rfl

theorem isOutstanding_iff :
    traversal.position.isOutstanding = true ↔ traversal.position.reached < histogram.total := by
  rw [Position.isOutstanding, Position.total, onTicks.follows.histogram_eq, decide_eq_true_eq]

theorem opened_of_outstanding (outstanding : traversal.position.reached < histogram.total) :
    traversal.opened = (true, traversal.state) := by
  rw [opened, onTicks.schedule_eq]
  exact if_pos (onTicks.isOutstanding_iff.mpr outstanding)

theorem opened_of_reached (whole : traversal.position.reached = histogram.total) :
    traversal.opened = traversal.state.beginClosing traversal.position := by
  rw [opened, onTicks.schedule_eq]
  apply if_neg
  intro outstanding
  exact (onTicks.isOutstanding_iff.mp outstanding).ne whole

/-- A turn that goes on with no values outstanding has begun the closing step. -/
theorem closing_opened (whole : traversal.position.reached = histogram.total)
    (goesOn : traversal.opened.1 = true) : traversal.opened.2.closing = true := by
  rw [onTicks.opened_of_reached whole] at goesOn ⊢
  exact closing_of_beginClosing goesOn

theorem opened_of_early (whole : traversal.position.reached = histogram.total)
    (positive : 0 < histogram.total) (early : traversal.state.closing = false) :
    traversal.opened = (true, { traversal.state with upcoming := 100.0, closing := true }) := by
  rw [onTicks.opened_of_reached whole]
  refine beginClosing_of_early _ early ?_
  rw [Position.total, onTicks.follows.histogram_eq]
  exact positive

/-! ### The invariants -/

theorem of_stepped (stepped : traversal.turn = .stepped step after) :
    OnTicks elementary histogram after := by
  have follows := follows_of_turn_eq_stepped onTicks.follows stepped
  obtain ⟨-, -, -, rfl⟩ := turn_eq_stepped_iff.mp stepped
  exact ⟨onTicks.schedule_eq, follows, onTicks.live⟩

theorem of_moved (moved : traversal.turn = .moved after) :
    OnTicks elementary histogram after := by
  have follows := follows_of_turn_eq_moved onTicks.follows moved
  obtain ⟨-, -, rfl⟩ := turn_eq_moved_iff.mp moved
  exact ⟨onTicks.schedule_eq, follows, onTicks.live⟩

end OnTicks

namespace OnScale

variable (onScale : OnScale elementary histogram traversal)
include onScale

/-- Opening a turn leaves the tick on the scale, as it is or at 100. -/
theorem opened_state :
    traversal.opened.2.perHalf = traversal.state.perHalf ∧
    ∃ value, Denotes traversal.opened.2.upcoming value ∧ value ≤ 100 := by
  rw [opened, onScale.schedule_eq]
  split
  · exact ⟨rfl, onScale.tick⟩
  · change (traversal.state.beginClosing traversal.position).2.perHalf = _ ∧
      ∃ value, Denotes (traversal.state.beginClosing traversal.position).2.upcoming value ∧ _
    unfold Ticks.beginClosing
    split
    · exact ⟨rfl, 100, denotes_hundred, le_rfl⟩
    · exact ⟨rfl, onScale.tick⟩

theorem of_stepped (accurate : elementary.Accurate)
    (stepped : traversal.turn = .stepped step after) : OnScale elementary histogram after := by
  obtain ⟨perHalf, value, denotes, inside⟩ := onScale.opened_state
  have positive : 0 < traversal.opened.2.perHalf := perHalf.symm ▸ onScale.perHalf_pos
  have word : traversal.opened.2.perHalf ≤ Word.max := perHalf.symm ▸ onScale.perHalf_le
  refine { onScale.toOnTicks.of_stepped stepped with perHalf_pos := ?_, perHalf_le := ?_, tick := ?_ }
  all_goals
    obtain ⟨-, -, -, rfl⟩ := turn_eq_stepped_iff.mp stepped
    rw [onScale.afterStep_eq]
  · exact positive
  · exact word
  · obtain ⟨next, nextDenotes, advances⟩ :=
      Ticks.denotes_following accurate positive word denotes inside
    exact ⟨next, nextDenotes, advances.le_hundred⟩

theorem of_moved (moved : traversal.turn = .moved after) :
    OnScale elementary histogram after := by
  obtain ⟨perHalf, tick⟩ := onScale.opened_state
  refine { onScale.toOnTicks.of_moved moved with perHalf_pos := ?_, perHalf_le := ?_, tick := ?_ }
  all_goals obtain ⟨-, -, rfl⟩ := turn_eq_moved_iff.mp moved
  · exact perHalf.symm ▸ onScale.perHalf_pos
  · exact perHalf.symm ▸ onScale.perHalf_le
  · exact tick

end OnScale

theorem overTicks_eq_ok_iff {perHalf : ℕ} :
    overTicks elementary histogram perHalf = .ok traversal ↔
      0 < perHalf ∧
        traversal = ofSchedule histogram (Schedule.ticks elementary) (Ticks.start perHalf) := by
  unfold overTicks
  split_ifs with isZero
  · simp [isZero]
  · simp only [Except.ok.injEq, Nat.pos_of_ne_zero isZero, true_and]
    exact eq_comm

/-- Over an empty histogram there is no turn to take. -/
theorem completed_of_overTicks {perHalf : ℕ} (empty : histogram.isEmpty = true)
    (made : overTicks elementary histogram perHalf = .ok traversal) :
    traversal.completed = true := by
  obtain ⟨-, rfl⟩ := overTicks_eq_ok_iff.mp made
  exact empty

theorem onTicks_of_overTicks {perHalf : ℕ} (recorded : histogram.isEmpty = false)
    (made : overTicks elementary histogram perHalf = .ok traversal) :
    OnTicks elementary histogram traversal := by
  obtain ⟨-, rfl⟩ := overTicks_eq_ok_iff.mp made
  exact ⟨rfl, Position.follows_origin histogram, recorded⟩

/-- Before its first turn a traversal has its first tick, which is 0. -/
theorem onScale_of_overTicks {perHalf : ℕ} (word : perHalf ≤ Word.max)
    (recorded : histogram.isEmpty = false)
    (made : overTicks elementary histogram perHalf = .ok traversal) :
    OnScale elementary histogram traversal := by
  have onTicks := onTicks_of_overTicks recorded made
  obtain ⟨positive, rfl⟩ := overTicks_eq_ok_iff.mp made
  exact ⟨onTicks, positive, word, 0, denotes_zero, by norm_num⟩

end Traversal

end LogLinear
