import LogLinear.Proofs.Histogram.InPlace
import LogLinear.Proofs.Histogram.Reachable
import LogLinear.Proofs.Histogram.Union

/-!
Contract: what one recording does to a histogram that any operations may have led to.

Owns:
- the causes for which a recording is refused, each with its exact condition;
- the effect of a recording that is not refused, field by field and on the extremes.

Does not own: several recordings. `LogLinear.Proofs.Histogram.Union` has them.
-/

namespace LogLinear.Histogram

/-- The histogram after is the one before with occurrences of a value that is in range. -/
structure Gains (before : Histogram) (value count : Nat) (after : Histogram) : Prop where
  layout_eq : after.layout = before.layout
  excess_eq : after.excess = before.excess
  ratio_eq : after.ratio = before.ratio
  size_eq : after.counters.size = before.counters.size
  total_eq : after.total = before.total + count
  count_eq :
    after.count (before.layout.cell value) = before.count (before.layout.cell value) + count
  others_eq : ∀ index, index ≠ before.layout.cell value → after.count index = before.count index
  unchanged : count = 0 → after = before
  extent_eq : 0 < count → after.extent = before.extent.cover before.layout.unitMask value
  minimum_eq : 0 < count → after.minimum =
    if before.isEmpty then before.layout.floor value
    else min before.minimum (before.layout.floor value)
  maximum_eq : 0 < count → after.maximum =
    if before.isEmpty then before.layout.ceiling value
    else max before.maximum (before.layout.ceiling value)

variable {histogram : Histogram} {value count : Nat}

section Tally

variable (sound : histogram.Sound) (trackable : value ≤ histogram.layout.highest)
  (room : histogram.total + count ≤ Word.max) (some : 0 < count)
include sound trackable room some

/-- The cell of the value is the lowest one if nothing was recorded, and else the lower one of itself
and the lowest one so far. -/
theorem minimum_tally :
    (histogram.tally value count).minimum =
      if histogram.isEmpty then histogram.layout.floor value
      else min histogram.minimum (histogram.layout.floor value) := by
  have isStart := histogram.layout.start_cell (trackable.trans histogram.layout.highest_le)
  have tallied := sound_tally sound trackable room
  have cells := held_tally sound trackable some.ne'
  rcases Nat.eq_zero_or_pos histogram.total with none | recorded
  · have isEmpty : histogram.isEmpty = true := decide_eq_true none
    rw [(held_eq_empty_iff_total sound).mpr none, Set.empty_union] at cells
    rw [if_pos isEmpty, ← isStart]
    exact minimum_eq_start tallied (cells ▸ isLeast_singleton)
  · have isEmpty : histogram.isEmpty ≠ true := mt of_decide_eq_true recorded.ne'
    obtain ⟨index, lowest⟩ := exists_lowest sound recorded
    rw [if_neg isEmpty, minimum_eq_start sound lowest, ← isStart, start,
      ← histogram.layout.start_mono.map_min]
    exact minimum_eq_start tallied (cells ▸ lowest.union isLeast_singleton)

theorem maximum_tally :
    (histogram.tally value count).maximum =
      if histogram.isEmpty then histogram.layout.ceiling value
      else max histogram.maximum (histogram.layout.ceiling value) := by
  have isCeiling : histogram.layout.ceiling (histogram.start (histogram.layout.cell value)) =
      histogram.layout.ceiling value := by
    rw [start, histogram.layout.start_cell (trackable.trans histogram.layout.highest_le)]
    exact histogram.layout.ceiling_eq_ceiling (histogram.layout.cell_floor value)
  have tallied := sound_tally sound trackable room
  have cells := held_tally sound trackable some.ne'
  rcases Nat.eq_zero_or_pos histogram.total with none | recorded
  · have isEmpty : histogram.isEmpty = true := decide_eq_true none
    rw [(held_eq_empty_iff_total sound).mpr none, Set.empty_union] at cells
    rw [if_pos isEmpty, ← isCeiling]
    exact maximum_eq_ceiling tallied (cells ▸ isGreatest_singleton)
  · have isEmpty : histogram.isEmpty ≠ true := mt of_decide_eq_true recorded.ne'
    obtain ⟨index, highest⟩ := exists_highest sound recorded
    rw [if_neg isEmpty, maximum_eq_ceiling sound highest, ← isCeiling, start, start,
      ← histogram.layout.ceiling_mono.map_max, ← histogram.layout.start_mono.map_max]
    exact maximum_eq_ceiling tallied (cells ▸ highest.union isGreatest_singleton)

end Tally

theorem gains_tally (sound : histogram.Sound) (trackable : value ≤ histogram.layout.highest)
    (room : histogram.total + count ≤ Word.max) :
    histogram.Gains value count (histogram.tally value count) where
  layout_eq := rfl
  excess_eq := rfl
  ratio_eq := rfl
  size_eq := Array.size_modify ..
  total_eq := rfl
  count_eq := by rw [count_tally _ _ _ _ (cell_lt_size sound trackable), if_pos rfl]
  others_eq index other := by
    rw [count_tally _ _ _ _ (cell_lt_size sound trackable), if_neg other, Nat.add_zero]
  unchanged none := none ▸ histogram.tally_zero value
  extent_eq some := if_neg some.ne'
  minimum_eq := minimum_tally sound trackable room
  maximum_eq := maximum_tally sound trackable room

/-! ### Refusals -/

theorem recordMany_of_rejected
    (rejected : histogram.layout.highest < value ∧ histogram.excess = .reject) :
    histogram.recordMany value count = .error .outOfRange := by
  rw [recordMany, Excess.accept_eq_none_iff.mpr rejected.symm]

theorem recordMany_of_admitted (sound : histogram.Sound)
    (admitted : ¬ (histogram.layout.highest < value ∧ histogram.excess = .reject)) :
    histogram.recordMany value count =
      if histogram.total + count ≤ Word.max then
        .ok (histogram.tally (min value histogram.layout.highest) count)
      else .error .overflow :=
  recordMany_eq sound fun rejected => admitted (Excess.accept_eq_none_iff.mp rejected).symm

theorem recordMany_eq_outOfRange_iff (sound : histogram.Sound) :
    histogram.recordMany value count = .error .outOfRange ↔
      histogram.layout.highest < value ∧ histogram.excess = .reject := by
  constructor
  · intro refused
    by_contra admitted
    rw [recordMany_of_admitted sound admitted] at refused
    split at refused <;> cases refused
  · exact recordMany_of_rejected

theorem recordMany_eq_overflow_iff (sound : histogram.Sound) :
    histogram.recordMany value count = .error .overflow ↔
      ¬ (histogram.layout.highest < value ∧ histogram.excess = .reject) ∧
        Word.max < histogram.total + count := by
  by_cases rejected : histogram.layout.highest < value ∧ histogram.excess = .reject
  · rw [recordMany_of_rejected rejected]
    exact iff_of_false nofun fun both => both.1 rejected
  · rw [recordMany_of_admitted sound rejected]
    split_ifs with room
    · exact iff_of_false nofun fun both => both.2.not_ge room
    · exact iff_of_true rfl ⟨rejected, Nat.lt_of_not_le room⟩

/-- A recording in a reachable histogram is refused as out of range if and only if the value is above
the highest trackable one and the rule rejects it, and as an overflow if and only if the value is let
in and the total has no room; the counter alone is never the cause. Otherwise just the counter of the
value, or of the highest trackable one in its place, and the total grow by the count, and unless that
is zero the extremes reach to the bounds of the cell. In place, all checks come before the first write,
so a refused recording leaves every field as it was. -/
theorem recordMany_of_reachable (reachable : histogram.Reachable) (value count : Nat) :
    (histogram.recordMany value count = .error .outOfRange ↔
      histogram.layout.highest < value ∧ histogram.excess = .reject) ∧
    (histogram.recordMany value count = .error .overflow ↔
      ¬ (histogram.layout.highest < value ∧ histogram.excess = .reject) ∧
        Word.max < histogram.total + count) ∧
    (¬ (histogram.layout.highest < value ∧ histogram.excess = .reject) →
      histogram.total + count ≤ Word.max →
      ∃ after, histogram.recordMany value count = .ok after ∧
        histogram.Gains (min value histogram.layout.highest) count after) ∧
    (Change.recordMany value count).run histogram =
      Change.whole histogram (histogram.recordMany value count) := by
  have sound := sound_of_reachable reachable
  refine ⟨recordMany_eq_outOfRange_iff sound, recordMany_eq_overflow_iff sound, ?_,
    Change.recordMany_run histogram value count⟩
  intro admitted room
  exact ⟨_, (recordMany_of_admitted sound admitted).trans (if_pos room),
    gains_tally sound (Nat.min_le_right _ _) room⟩

/-- A value that is too large, a count that is too large, and the first value beyond the first
unit. -/
theorem firstUnit_recordMany :
    firstUnit.Reachable ∧ firstUnit.recordMany 128 1 = .error .outOfRange ∧
      firstUnit.recordMany 13 Word.max = .error .overflow ∧
      ∃ after, firstUnit.recordMany 13 4 = .ok after ∧ after.total = 6 ∧ after.count 2 = 4 ∧
        after.count 0 = 2 ∧ after.extent = ⟨12, 15⟩ ∧ after.minimum = 0 ∧
        after.maximum = 15 := by
  have highest : firstUnit.layout.highest = 127 := by decide +kernel
  have excess : firstUnit.excess = .reject := by decide +kernel
  have total : firstUnit.total = 2 := by decide +kernel
  have cell : firstUnit.layout.cell (min 13 firstUnit.layout.highest) = 2 := by decide +kernel
  have outOfRange := (recordMany_of_reachable firstUnit_reachable 128 1).1
  have overflow := (recordMany_of_reachable firstUnit_reachable 13 Word.max).2.1
  obtain ⟨after, made, gains⟩ := (recordMany_of_reachable firstUnit_reachable 13 4).2.2.1
    (by rw [highest]; simp) (by rw [total]; decide)
  refine ⟨firstUnit_reachable, outOfRange.mpr ⟨by omega, excess⟩, ?_, after, made,
    ?_, ?_, ?_, ?_, ?_, ?_⟩
  · rw [overflow, highest, total]
    decide
  · rw [gains.total_eq, total]
  · have count := gains.count_eq
    rw [cell] at count
    rw [count]
    decide +kernel
  · rw [gains.others_eq 0 (by rw [cell]; decide)]
    decide +kernel
  · rw [gains.extent_eq (by decide)]
    decide +kernel
  · rw [gains.minimum_eq (by decide)]
    decide +kernel
  · rw [gains.maximum_eq (by decide)]
    decide +kernel

end LogLinear.Histogram
