import LogLinear.Proofs.Traversal.Chain
import LogLinear.Proofs.Traversal.Closing

/-!
Contract: where the steps of a traversal along ticks are taken, whatever the distance of the ticks.

Owns:
- the invariant of such a traversal: since the last step its tick has been attained by none of the
  cells that it left behind;
- every step on the next cell that attains its level, and the closing step as the last one.

Nothing is assumed of the logarithm and the power, so ticks may be out of order or off the scale.

Does not own: whether there is a closing step. `LogLinear.Proofs.Traversal.Closing` has that.
-/

namespace LogLinear

open Histogram

/-- The step is taken where its level is attained, and no cell from the bound on was passed over that
attains it. A stop leaves the cell after its own as the bound of the next stop, which may be on the
same cell again. -/
structure Stop.Attained (histogram : Histogram) (bound : ℕ) (stop : Stop) : Prop where
  ordered : bound ≤ stop.index + 1
  attains : histogram.Attains stop.step.level stop.index
  passed : ∀ cell, bound ≤ cell → cell < stop.index → ¬ histogram.Attains stop.step.level cell
  percent_eq : stop.step.percent = percentOf (histogram.countBefore (stop.index + 1)) histogram.total

namespace Traversal

variable {elementary : Elementary} {histogram : Histogram} {traversal after : Traversal Ticks}
  {step : Step} {bound : ℕ}

/-- A traversal along ticks which has passed over no cell that attains its tick, from the bound on.
Past the last recorded value the tick is replaced, and the cells left behind may attain the new one;
but then the traversal is on cells that hold no count, where no step is taken any more. -/
structure Seeks (elementary : Elementary) (histogram : Histogram) (bound : ℕ)
    (traversal : Traversal Ticks) : Prop extends OnTicks elementary histogram traversal where
  ordered : bound ≤ traversal.position.index + 1
  settled : traversal.position.fresh = false → traversal.position.index < bound
  passed : (traversal.position.fresh = true ∧ traversal.position.reached = histogram.total) ∨
    ∀ cell, bound ≤ cell → cell < traversal.position.index →
      ¬ histogram.Attains traversal.state.upcoming cell

theorem seeks_of_overTicks {perHalf : ℕ} (recorded : histogram.isEmpty = false)
    (made : overTicks elementary histogram perHalf = .ok traversal) :
    Seeks elementary histogram 0 traversal := by
  have onTicks := onTicks_of_overTicks recorded made
  obtain ⟨-, rfl⟩ := overTicks_eq_ok_iff.mp made
  exact { onTicks with
    ordered := Nat.zero_le _
    settled := fun folded => Bool.noConfusion folded
    passed := .inr fun cell _ below => absurd below (Nat.not_lt_zero cell) }

section Sound

variable (sound : histogram.Sound)
include sound

/-- Past the last recorded value no cell attains anything. -/
theorem not_attains_of_reached {position : Position} (follows : position.Follows histogram)
    (fresh : position.fresh = true) (whole : position.reached = histogram.total) (level : Float) :
    ¬ histogram.Attains level position.index := by
  intro attains
  have before := follows.reached_eq
  rw [fresh, if_pos rfl, whole, sound.total_eq] at before
  exact attains.1 (histogram.count_eq_zero_of_countBefore_eq before.symm le_rfl)

namespace Seeks

variable (seeks : Seeks elementary histogram bound traversal)
include seeks

/-- No cell before the one that a turn looks at was passed over, whatever tick the turn begins
with, unless there is nothing left to attain. -/
theorem passed_opened :
    (traversal.position.fresh = true ∧ traversal.position.reached = histogram.total) ∨
      ∀ cell, bound ≤ cell → cell < traversal.position.index →
        ¬ histogram.Attains traversal.opened.2.upcoming cell := by
  rcases (seeks.follows.reached_le sound).lt_or_eq with outstanding | whole
  · rw [seeks.opened_of_outstanding outstanding]
    exact seeks.passed
  · cases fresh : traversal.position.fresh with
    | true => exact .inl ⟨rfl, whole⟩
    | false =>
        -- The last step was taken on this very cell, so none was left behind since.
        refine .inr fun cell above below => ?_
        exact absurd (below.trans (seeks.settled fresh)) (Nat.not_lt_of_le above)

theorem of_moved (moved : traversal.turn = .moved after) :
    Seeks elementary histogram bound after := by
  have onTicks := seeks.toOnTicks.of_moved moved
  have earlier := seeks.passed_opened sound
  obtain ⟨-, passes, rfl⟩ := turn_eq_moved_iff.mp moved
  have isNext : traversal.position.visited.forward.index = traversal.position.index + 1 :=
    congrArg (· + 1) (Position.visited_index _)
  refine { onTicks with ordered := ?_, settled := ?_, passed := ?_ }
  · rw [isNext]
    exact seeks.ordered.trans (Nat.le_succ _)
  · exact fun folded => absurd folded (by simp [Position.forward])
  · rcases earlier with ⟨-, whole⟩ | none
    · exact .inl ⟨rfl, visited_reached_eq_total sound seeks.follows whole⟩
    · refine .inr fun cell above below => ?_
      rw [isNext] at below
      rcases Nat.lt_succ_iff_lt_or_eq.mp below with before | rfl
      · exact none cell above before
      · rw [← seeks.endsStep_iff, passes]
        exact Bool.false_ne_true

theorem of_stepped (stepped : traversal.turn = .stepped step after) :
    Stop.Attained histogram bound ⟨after.position.index, step⟩ ∧
      Seeks elementary histogram (after.position.index + 1) after := by
  have onTicks := seeks.toOnTicks.of_stepped stepped
  have quotes := quotes_of_turn_eq_stepped seeks.follows stepped
  have earlier := seeks.passed_opened sound
  have sameIndex := index_of_turn_eq_stepped stepped
  have isLevel := seeks.level_of_stepped stepped
  obtain ⟨-, ends, -, -⟩ := turn_eq_stepped_iff.mp stepped
  rw [seeks.endsStep_iff, ← isLevel] at ends
  rw [← isLevel] at earlier
  refine ⟨⟨?_, ?_, ?_, quotes.percent_eq⟩,
    { onTicks with
      ordered := le_rfl
      settled := fun _ => Nat.lt_succ_self _
      passed := .inr fun cell above below => absurd (below.trans above) (lt_irrefl _) }⟩
  · rw [sameIndex]
    exact seeks.ordered
  · rw [sameIndex]
    exact ends
  · rw [sameIndex]
    rcases earlier with ⟨fresh, whole⟩ | none
    · exact absurd ends (not_attains_of_reached sound seeks.follows fresh whole _)
    · exact none

end Seeks

/-! ### The closing step -/

/-- A step of a pull that begins at the end of the values closes the traversal. -/
theorem OnTicks.closed_of_next (onTicks : OnTicks elementary histogram traversal)
    (whole : traversal.position.reached = histogram.total)
    (isNext : traversal.next = (some step, after)) :
    OnTicks elementary histogram after ∧ Closed histogram after := by
  obtain ⟨last, ⟨lastOnTicks, lastWhole⟩, turned⟩ : ∃ last : Traversal Ticks,
      (OnTicks elementary histogram last ∧ last.position.reached = histogram.total) ∧
        last.turn = .stepped step after := by
    refine exists_turn_of_run ?_ ⟨onTicks, whole⟩ (run_of_next_eq_some isNext)
    rintro before after ⟨beforeOnTicks, beforeWhole⟩ moved
    exact ⟨beforeOnTicks.of_moved moved, (beforeOnTicks.closed_of_moved sound beforeWhole moved).2⟩
  exact ⟨lastOnTicks.of_stepped turned, lastOnTicks.closed_of_stepped sound lastWhole turned⟩

/-- No step follows one of a pull that begins at the end of the values. -/
theorem OnTicks.next_pulled_of_reached (onTicks : OnTicks elementary histogram traversal)
    {number : ℕ} (whole : (pulled number traversal).position.reached = histogram.total)
    (isNext : (pulled number traversal).next = (some step, after)) {later : ℕ}
    (follows : number < later) : (pulled later traversal).next.1 = none := by
  obtain ⟨more, rfl⟩ := Nat.exists_eq_add_of_le follows
  have closing : OnTicks elementary histogram (pulled number traversal) := by
    have overOrNot := completed_or_pulled (OnTicks elementary histogram)
      (fun before moved => before.of_moved moved) (fun before stepped => before.of_stepped stepped)
      number onTicks
    refine overOrNot.resolve_left ?_
    intro isOver
    rw [next, if_pos isOver] at isNext
    simp at isNext
  obtain ⟨onTicksAfter, closed⟩ := closing.closed_of_next sound whole isNext
  have isPulled : pulled (number + 1) traversal = after := by
    rw [pulled_add, pulled, pulled, isNext]
  rw [Nat.succ_eq_add_one, pulled_add, isPulled]
  exact next_pulled_of_none (onTicksAfter.next_of_closed closed) more

end Sound

/-- Whatever numbers the ticks are and however often the traversal is pulled: each step is taken at
a cell that attains its level, with the percentage compared there; no cell that attains it was
passed over since the step before, or since the start; and if a pull begins with every value
reached and gives a step, no pull after it does. -/
theorem overTicks_attains (reachable : histogram.Reachable) {perHalf : ℕ}
    (made : overTicks elementary histogram perHalf = .ok traversal) (pulls : ℕ) :
    (∀ first ∈ (stops pulls traversal).head?, first.Attained histogram 0) ∧
    (stops pulls traversal).IsChain
      (fun earlier later => later.Attained histogram (earlier.index + 1)) ∧
    ∀ number, (pulled number traversal).position.reached = histogram.total →
      (pulled number traversal).next.1 ≠ none →
        ∀ later, number < later → (pulled later traversal).next.1 = none := by
  have sound := sound_of_reachable reachable
  cases recorded : histogram.isEmpty with
  | true =>
      have isOver := completed_of_overTicks recorded made
      have none : traversal.next.1 = .none := by rw [next, if_pos isOver]
      rw [stops_of_completed pulls isOver]
      refine ⟨by simp, List.isChain_nil, ?_⟩
      intro number _ _ later _
      exact next_pulled_of_none none later
  | false =>
      obtain ⟨head, chain, -⟩ := isChain_stops_of_turns (Seeks elementary histogram)
        (fun bound stop => stop.Attained histogram bound) (fun stop => stop.index + 1)
        (fun seeks moved => seeks.of_moved sound moved)
        (fun seeks stepped => seeks.of_stepped sound stepped) pulls 0
        (seeks_of_overTicks recorded made)
      refine ⟨head, chain, ?_⟩
      intro number whole gives later follows
      obtain ⟨step, isStep⟩ := Option.ne_none_iff_exists'.mp gives
      exact (onTicks_of_overTicks recorded made).next_pulled_of_reached sound whole
        (Prod.ext isStep rfl) follows

/-- The natural logarithm of 1 and of 2, and the powers of two with the exponents 1 and 2. -/
def tabled : Elementary where
  ln number := if number ≤ 1.0 then 0.0 else 0.6931471805599453
  power _ exponent := if exponent ≤ 1.0 then 2.0 else 4.0

/-- Seven values, of which one is in cell 2, two are in cell 3 and four are in cell 4. -/
def rising : Histogram := kept .sample (Histogram.sample.recordMany 8 4)

theorem rising_reachable : rising.Reachable := .recordedMany sample_reachable 8 4

/-- Over them, with one tick to a half, the first step is taken at 0, the second one at 50, which
cell 3 does not attain, and the third one closes the traversal. -/
theorem rising_attains : ∃ traversal first second last,
    rising.Reachable ∧ overTicks tabled rising 1 = .ok traversal ∧
      stops 3 traversal = [first, second, last] ∧
      (first.index = 2 ∧ second.index = 4 ∧ last.index = 4) ∧
      (first.Attained rising 0 ∧ second.Attained rising 3 ∧ last.Attained rising 5) ∧
      (rising.count 3 ≠ 0 ∧ ¬ rising.Attains second.step.level 3) ∧
      (pulled 2 traversal).position.reached = rising.total ∧
      (pulled 2 traversal).next.1 = some last.step ∧ (pulled 3 traversal).next.1 = none := by
  have made : overTicks tabled rising 1 =
    .ok (ofSchedule rising (Schedule.ticks tabled) (Ticks.start 1)) := rfl
  generalize isTraversal : ofSchedule rising (Schedule.ticks tabled) (Ticks.start 1) = traversal
    at made
  obtain ⟨first, afterFirst, isFirst, second, afterSecond, isSecond, last, afterLast, isLast,
    indices, whole⟩ : ∃ first afterFirst, traversal.next = (some first, afterFirst) ∧
      ∃ second afterSecond, afterFirst.next = (some second, afterSecond) ∧
      ∃ last afterLast, afterSecond.next = (some last, afterLast) ∧
      (afterFirst.position.index = 2 ∧ afterSecond.position.index = 4 ∧
        afterLast.position.index = 4) ∧ afterSecond.position.reached = rising.total := by
    have recorded : rising.isEmpty = false := by decide +kernel
    subst isTraversal
    refine ⟨_, _,
      (next_of_moved recorded (turn_eq_moved_iff.mpr ⟨?_, ?_, rfl⟩) ?_).trans
        ((next_of_moved recorded (turn_eq_moved_iff.mpr ⟨?_, ?_, rfl⟩) ?_).trans
          (next_of_stepped recorded (turn_eq_stepped_iff.mpr ⟨?_, ?_, rfl, rfl⟩))),
      _, _,
      (next_of_moved recorded (turn_eq_moved_iff.mpr ⟨?_, ?_, rfl⟩) ?_).trans
        ((next_of_moved recorded (turn_eq_moved_iff.mpr ⟨?_, ?_, rfl⟩) ?_).trans
          (next_of_stepped recorded (turn_eq_stepped_iff.mpr ⟨?_, ?_, rfl, rfl⟩))),
      _, _, next_of_stepped recorded (turn_eq_stepped_iff.mpr ⟨?_, ?_, rfl, rfl⟩), ?_, ?_⟩
    all_goals decide +kernel
  obtain ⟨firstIndex, secondIndex, lastIndex⟩ := indices
  have isStops : stops 3 traversal = [⟨2, first⟩, ⟨4, second⟩, ⟨4, last⟩] := by
    rw [stops_of_some 2 isFirst, stops_of_some 1 isSecond, stops_of_some 0 isLast, firstIndex,
      secondIndex, lastIndex, stops]
  have isPulled : pulled 2 traversal = afterSecond := by
    rw [pulled, pulled, pulled, isFirst, isSecond]
  obtain ⟨head, chain, closes⟩ := overTicks_attains rising_reachable made 3
  rw [isStops] at head chain
  obtain ⟨attained, chain⟩ := List.isChain_cons_cons.mp chain
  obtain ⟨closing, -⟩ := List.isChain_cons_cons.mp chain
  have gives : (pulled 2 traversal).next.1 = some last := by rw [isPulled, isLast]
  have isWhole : (pulled 2 traversal).position.reached = rising.total := by rw [isPulled, whole]
  refine ⟨traversal, _, _, _, rising_reachable, made, isStops, ⟨rfl, rfl, rfl⟩,
    ⟨head _ rfl, attained, closing⟩,
    ⟨by decide +kernel, attained.passed 3 le_rfl (Nat.lt_succ_self 3)⟩, isWhole, gives, ?_⟩
  exact closes 2 isWhole (gives.trans_ne (Option.some_ne_none _)) 3 (Nat.lt_succ_self 2)

end Traversal

end LogLinear
