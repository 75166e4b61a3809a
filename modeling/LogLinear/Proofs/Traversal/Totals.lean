import LogLinear.Proofs.Histogram.Reachable
import LogLinear.Proofs.Traversal.Walk
import LogLinear.Traversal.Cells
import Mathlib.Algebra.BigOperators.Ring.Finset

/-!
Contract: the running totals of a traversal, whatever the schedule does.

Owns:
- the traversals that a traversal leads to, turn by turn;
- the invariant of their positions: the totals are sums over the cells folded in, and the end of the
  last step is not ahead of them;
- the bounds that keep the totals within sixty-four and a hundred and twenty-eight bits.

Does not own: the steps. `LogLinear.Proofs.Traversal.Chain` has them.
-/

namespace LogLinear

open Finset

/-! ### Weights -/

namespace Histogram

variable (histogram : Histogram)

/-- The sum of the values of the cells before an index, each value taken as the greatest of its
cell. -/
def weightBefore (index : Nat) : Nat :=
  ∑ cell ∈ range index, histogram.count cell * histogram.layout.ceiling (histogram.start cell)

theorem weightBefore_succ (index : Nat) :
    histogram.weightBefore (index + 1) = histogram.weightBefore index +
      histogram.count index * histogram.layout.ceiling (histogram.start index) :=
  sum_range_succ _ index

theorem weightBefore_mono : Monotone histogram.weightBefore := by
  apply monotone_nat_of_le_succ
  intro index
  rw [weightBefore_succ]
  exact Nat.le_add_right _ _

theorem ceiling_start_le_max (index : Nat) :
    histogram.layout.ceiling (histogram.start index) ≤ Word.max :=
  histogram.layout.ceiling_le_of_word (histogram.layout.start_le_max index)

theorem weightBefore_le (index : Nat) :
    histogram.weightBefore index ≤ histogram.countBefore index * Word.max := by
  rw [countBefore_eq_sum, sum_mul]
  apply sum_le_sum
  intro cell _
  exact Nat.mul_le_mul_left _ (histogram.ceiling_start_le_max cell)

end Histogram

/-! ### Positions -/

namespace Position

/-- The position follows its histogram with its weight too, and the last step ended no later than
there. -/
structure Accounts (histogram : Histogram) (position : Position) : Prop
    extends position.Follows histogram where
  weight_eq : position.weight =
    histogram.weightBefore (if position.fresh then position.index else position.index + 1)
  stepReached_le : position.stepReached ≤ position.reached

variable {histogram : Histogram} {position : Position}

theorem accounts_origin (histogram : Histogram) : (origin histogram).Accounts histogram where
  toFollows := follows_origin histogram
  weight_eq := rfl
  stepReached_le := le_rfl

theorem visited_stepValue (position : Position) :
    position.visited.stepValue = position.stepValue := by
  unfold visited
  split <;> rfl

theorem visited_stepReached (position : Position) :
    position.visited.stepReached = position.stepReached := by
  unfold visited
  split <;> rfl

namespace Accounts

variable (accounts : position.Accounts histogram)
include accounts

/-- What looking at the cell adds to the count. -/
theorem visited_reached_eq : position.visited.reached =
    position.reached + if position.fresh then histogram.count position.index else 0 := by
  obtain ⟨⟨rfl, -, -, -⟩, -, -⟩ := accounts
  unfold Position.visited
  split
  · rfl
  · exact (Nat.add_zero _).symm

/-- What looking at the cell adds to the weight. -/
theorem visited_weight_eq : position.visited.weight = position.weight +
    if position.fresh then histogram.count position.index * position.value else 0 := by
  obtain ⟨⟨rfl, -, -, -⟩, -, -⟩ := accounts
  unfold Position.visited
  split
  · exact congrArg (position.weight + ·) (position.cellWeight_eq _)
  · exact (Nat.add_zero _).symm

theorem visited_weight : position.visited.weight = histogram.weightBefore (position.index + 1) := by
  rw [accounts.visited_weight_eq, accounts.weight_eq, accounts.value_eq]
  split
  · exact (histogram.weightBefore_succ _).symm
  · rfl

theorem visited : position.visited.Accounts histogram where
  toFollows := accounts.toFollows.visited
  weight_eq := by
    rw [visited_fresh, visited_index]
    exact accounts.visited_weight
  stepReached_le := by
    rw [visited_stepReached]
    exact accounts.stepReached_le.trans accounts.reached_le_visited

theorem settled (value : Nat) : (position.settled value).Accounts histogram where
  toFollows := accounts.toFollows.settled value
  weight_eq := accounts.weight_eq
  stepReached_le := le_rfl

theorem forward (folded : position.fresh = false) : position.forward.Accounts histogram where
  toFollows := accounts.toFollows.forward folded
  weight_eq := by
    have weight := accounts.weight_eq
    rw [folded] at weight
    exact weight
  stepReached_le := accounts.stepReached_le

/-! ### Sums over cells -/

/-- The cells before the position are folded in, and its own cell unless it is fresh. -/
theorem reached_eq_sum : position.reached = ∑ cell ∈ range position.index, histogram.count cell +
    if position.fresh then 0 else histogram.count position.index := by
  rw [accounts.reached_eq, histogram.countBefore_eq_sum]
  split
  · rfl
  · exact sum_range_succ _ _

theorem weight_eq_sum : position.weight =
    ∑ cell ∈ range position.index,
      histogram.count cell * histogram.layout.ceiling (histogram.start cell) +
    if position.fresh then 0
    else histogram.count position.index *
      histogram.layout.ceiling (histogram.start position.index) := by
  rw [accounts.weight_eq]
  split
  · rfl
  · exact histogram.weightBefore_succ _

/-- The weight is a sum of as many words as there are recorded values. -/
theorem weight_le (sound : histogram.Sound) : position.weight ≤ Word.max * Word.max := by
  calc position.weight ≤ position.reached * Word.max := by
        rw [accounts.weight_eq, accounts.reached_eq]
        exact histogram.weightBefore_le _
    _ ≤ Word.max * Word.max :=
        Nat.mul_le_mul_right _ ((accounts.reached_le sound).trans sound.total_le)

end Accounts

end Position

/-! ### Turns -/

namespace Traversal

variable {σ : Type} {traversal before after : Traversal σ} {step : Step}

/-- The traversals that a traversal leads to: whatever it has become after some turns. A traversal
that is over takes no more of them. -/
inductive Leads (traversal : Traversal σ) : Traversal σ → Prop
  | start : Leads traversal traversal
  | moved {before after : Traversal σ} (earlier : Leads traversal before)
      (live : before.completed = false) (turned : before.turn = .moved after) :
      Leads traversal after
  | stepped {before after : Traversal σ} {step : Step} (earlier : Leads traversal before)
      (live : before.completed = false) (turned : before.turn = .stepped step after) :
      Leads traversal after
  | finished {before after : Traversal σ} (earlier : Leads traversal before)
      (live : before.completed = false) (turned : before.turn = .finished after) :
      Leads traversal after

theorem Leads.trans (earlier : traversal.Leads before) (later : before.Leads after) :
    traversal.Leads after := by
  induction later with
  | start => exact earlier
  | moved _ live turned inductionHypothesis => exact .moved inductionHypothesis live turned
  | stepped _ live turned inductionHypothesis => exact .stepped inductionHypothesis live turned
  | finished _ live turned inductionHypothesis => exact .finished inductionHypothesis live turned

/-- What a pull leaves is led to. Where indices run out it is marked as over besides. -/
theorem exists_leads_next (traversal : Traversal σ) :
    ∃ last, traversal.Leads last ∧
      (traversal.next.2 = last ∨ traversal.next.2 = { last with completed := true }) := by
  cases live : traversal.completed with
  | true => exact ⟨traversal, .start, .inl (by rw [next, if_pos live])⟩
  | false =>
      rw [next_of_live live]
      fun_induction run traversal with
      | case1 before after turned => exact ⟨after, .finished .start live turned, .inl rfl⟩
      | case2 before step after turned => exact ⟨after, .stepped .start live turned, .inl rfl⟩
      | case3 before after turned inside inductionHypothesis =>
          have liveAfter := (completed_of_turn_eq_moved turned).trans live
          obtain ⟨last, leads, left⟩ := inductionHypothesis liveAfter
          exact ⟨last, .trans (.moved .start live turned) leads, left⟩
      | case4 before after turned outside => exact ⟨after, .moved .start live turned, .inr rfl⟩

/-- A position accounts for its histogram at every turn, and a traversal that is not over is one of
a histogram that is not empty. -/
structure Accounts (histogram : Histogram) (traversal : Traversal σ) : Prop where
  position : traversal.position.Accounts histogram
  recorded : traversal.completed = false → 0 < histogram.total

theorem accounts_ofSchedule (histogram : Histogram) (schedule : Schedule σ) (state : σ) :
    (ofSchedule histogram schedule state).Accounts histogram where
  position := Position.accounts_origin histogram
  recorded live := total_pos_of_recorded live

namespace Accounts

variable {histogram : Histogram} (accounts : traversal.Accounts histogram)
include accounts

theorem of_moved (moved : traversal.turn = .moved after) : after.Accounts histogram := by
  obtain ⟨-, -, rfl⟩ := turn_eq_moved_iff.mp moved
  exact ⟨accounts.position.visited.forward (Position.visited_fresh _), accounts.recorded⟩

theorem of_stepped (stepped : traversal.turn = .stepped step after) :
    after.Accounts histogram := by
  obtain ⟨-, -, -, rfl⟩ := turn_eq_stepped_iff.mp stepped
  exact ⟨accounts.position.visited.settled _, accounts.recorded⟩

theorem of_finished (finished : traversal.turn = .finished after) :
    after.Accounts histogram := by
  obtain ⟨-, rfl⟩ := turn_eq_finished_iff.mp finished
  exact ⟨accounts.position, fun live => absurd live (by simp)⟩

theorem of_leads (leads : traversal.Leads after) : after.Accounts histogram := by
  induction leads with
  | start => exact accounts
  | moved _ _ turned inductionHypothesis => exact inductionHypothesis.of_moved turned
  | stepped _ _ turned inductionHypothesis => exact inductionHypothesis.of_stepped turned
  | finished _ _ turned inductionHypothesis => exact inductionHypothesis.of_finished turned

end Accounts

/-- The positions that a traversal shows its schedule: the one between two turns, and the one within
a turn, where the cell has been looked at. -/
def Shows (traversal : Traversal σ) (position : Position) : Prop :=
  position = traversal.position ∨
    traversal.completed = false ∧ position = traversal.position.visited

theorem Accounts.of_shows {histogram : Histogram} (accounts : traversal.Accounts histogram)
    {position : Position} (shows : traversal.Shows position) : position.Accounts histogram := by
  rcases shows with rfl | ⟨-, rfl⟩
  · exact accounts.position
  · exact accounts.position.visited

/-- Whatever the schedule, after any number of turns and within a turn as well, the totals of the
position are sums over the cells before it, with its own cell once that has been folded in; its
bounds are those of its cell and of the next one; and neither the totals nor what a turn adds to
them leaves the words they are kept in. -/
theorem totals_of_leads {histogram : Histogram} (reachable : histogram.Reachable)
    (schedule : Schedule σ) (state : σ) (leads : (ofSchedule histogram schedule state).Leads traversal)
    {position : Position} (shows : traversal.Shows position) :
    (position.reached = ∑ cell ∈ range position.index, histogram.count cell +
        (if position.fresh then 0 else histogram.count position.index) ∧
      position.weight = ∑ cell ∈ range position.index,
          histogram.count cell * histogram.layout.ceiling (histogram.start cell) +
        (if position.fresh then 0
          else histogram.count position.index *
            histogram.layout.ceiling (histogram.start position.index))) ∧
    (position.start = histogram.start position.index ∧
      position.nextStart = histogram.start (position.index + 1)) ∧
    (position.stepReached ≤ position.reached ∧ position.reached ≤ histogram.total ∧
      histogram.total ≤ Word.max ∧ position.weight < 2 ^ 128) ∧
    (position.reached + (if position.fresh then histogram.count position.index else 0) ≤ Word.max ∧
      position.weight + (if position.fresh then histogram.count position.index * position.value
        else 0) < 2 ^ 128) ∧
    (traversal.completed = false → 0 < position.total) := by
  have sound := Histogram.sound_of_reachable reachable
  have everywhere := (accounts_ofSchedule histogram schedule state).of_leads leads
  have accounts := everywhere.of_shows shows
  have wide : Word.max * Word.max < 2 ^ 128 := by decide
  refine ⟨⟨accounts.reached_eq_sum, accounts.weight_eq_sum⟩,
    ⟨accounts.start_eq, accounts.nextStart_eq⟩,
    ⟨accounts.stepReached_le, accounts.reached_le sound, sound.total_le,
      (accounts.weight_le sound).trans_lt wide⟩, ⟨?_, ?_⟩, ?_⟩
  · rw [← accounts.visited_reached_eq]
    exact (accounts.visited.reached_le sound).trans sound.total_le
  · rw [← accounts.visited_weight_eq]
    exact (accounts.visited.weight_le sound).trans_lt wide
  · intro live
    rw [Position.total, accounts.histogram_eq]
    exact everywhere.recorded live

/-- The third turn over the held cells of a histogram looks at the first of them. -/
theorem sample_totals_of_leads :
    ∃ traversal position, (overHeldCells .sample).Leads traversal ∧ traversal.Shows position ∧
      position.index = 2 ∧ position.reached = 1 ∧ position.weight = 3 := by
  have recorded : (overHeldCells .sample).completed = false := by decide +kernel
  have first := turn_eq_moved_iff.mpr (⟨by decide +kernel, by decide +kernel, rfl⟩ :
    (overHeldCells .sample).opened.1 = true ∧ _ ∧ _)
  obtain ⟨traversal, leads, live, index⟩ : ∃ traversal, (overHeldCells .sample).Leads traversal ∧
      traversal.completed = false ∧ traversal.position.index = 2 :=
    ⟨_, .moved (.moved .start recorded first) recorded
      (turn_eq_moved_iff.mpr ⟨by decide +kernel, by decide +kernel, rfl⟩), recorded, rfl⟩
  have shows : traversal.Shows traversal.position.visited := .inr ⟨live, rfl⟩
  obtain ⟨⟨reached, weight⟩, -⟩ := totals_of_leads Histogram.sample_reachable _ _ leads shows
  have visitedIndex := (Position.visited_index traversal.position).trans index
  rw [Position.visited_fresh, visitedIndex] at reached weight
  exact ⟨traversal, _, leads, shows, visitedIndex, reached.trans (by decide +kernel),
    weight.trans (by decide +kernel)⟩

end Traversal

end LogLinear
