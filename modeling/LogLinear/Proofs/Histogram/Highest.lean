import LogLinear.Histogram.Percentile
import LogLinear.Proofs.Histogram.Reachable

/-!
Contract: the highest cell that holds a count, and the values below it.

Owns:
- the count of that cell, which is that of the maximum;
- the number of values below it, which is the most that can be reached while some are outstanding;
- the last cell below it that holds a count.

Does not own: the value of that cell. `LogLinear.Proofs.Histogram.Extremes` has it.
-/

namespace LogLinear.Histogram

/-- The number of recorded values below the highest cell that holds a count. -/
def belowHighest (histogram : Histogram) : Nat :=
  histogram.total - histogram.countOf histogram.maximum

variable {histogram : Histogram} (sound : histogram.Sound)
include sound

theorem cell_ceiling_start {index : Nat} (counted : index < histogram.counters.size) :
    histogram.layout.cell (histogram.layout.ceiling (histogram.start index)) = index := by
  rw [Layout.cell_ceiling, start]
  exact histogram.layout.cell_start_of_counted (sound.size_eq ▸ counted)

/-- A cell is looked up by the value that is reported for it. -/
theorem lookupIndex_ceiling_start {index : Nat} (counted : index < histogram.counters.size) :
    histogram.lookupIndex (histogram.layout.ceiling (histogram.start index)) = index := by
  rw [lookupIndex, cell_ceiling_start sound counted, min_eq_left (Nat.le_sub_one_of_lt counted)]

theorem floor_ceiling_start {index : Nat} (counted : index < histogram.counters.size) :
    histogram.layout.floor (histogram.layout.ceiling (histogram.start index)) =
      histogram.start index := by
  have inside := histogram.layout.le_cell_max (sound.size_eq ▸ counted)
  rw [← Layout.edge_cell, cell_ceiling_start sound counted, start,
    histogram.layout.start_of_le_cell inside]

section Highest

variable {index : ℕ} (highest : IsGreatest histogram.held index)
include highest

theorem countOf_maximum : histogram.countOf histogram.maximum = histogram.count index := by
  have inside : index < histogram.counters.size := lt_size_of_getD_ne_zero highest.1
  rw [countOf, maximum_eq_ceiling sound highest, lookupIndex_ceiling_start sound inside]

theorem countBefore_highest_succ : histogram.countBefore (index + 1) = histogram.total := by
  rw [sound.total_eq]
  apply histogram.countBefore_eq_sumOf
  intro later above
  by_contra isHeld
  exact (highest.2 isHeld).not_gt above

theorem belowHighest_eq : histogram.belowHighest = histogram.countBefore index := by
  rw [belowHighest, countOf_maximum sound highest, ← countBefore_highest_succ sound highest,
    countBefore_succ, Nat.add_sub_cancel]

end Highest

theorem belowHighest_lt (recorded : 0 < histogram.total) :
    histogram.belowHighest < histogram.total := by
  obtain ⟨index, highest⟩ := exists_highest sound recorded
  have isHeld : 0 < histogram.count index := Nat.pos_of_ne_zero highest.1
  rw [belowHighest_eq sound highest, ← countBefore_highest_succ sound highest, countBefore_succ]
  omega

/-- Whatever is reached before the end is below the highest cell. -/
theorem countBefore_le_belowHighest {index : ℕ}
    (short : histogram.countBefore index < histogram.total) :
    histogram.countBefore index ≤ histogram.belowHighest := by
  obtain ⟨top, highest⟩ := exists_highest sound (Nat.zero_lt_of_lt short)
  rw [belowHighest_eq sound highest]
  apply histogram.countBefore_mono
  by_contra above
  have whole := histogram.countBefore_mono (Nat.lt_of_not_le above)
  rw [Nat.succ_eq_add_one, countBefore_highest_succ sound highest] at whole
  exact whole.not_gt short

/-- If there are values below the highest cell, one of the cells below is the last that holds any. -/
theorem exists_last_below (crowded : 0 < histogram.belowHighest) :
    ∃ index, histogram.count index ≠ 0 ∧
      histogram.countBefore (index + 1) = histogram.belowHighest := by
  have recorded : 0 < histogram.total := crowded.trans_le (Nat.sub_le _ _)
  obtain ⟨top, highest⟩ := exists_highest sound recorded
  have reached : ∃ index, histogram.countBefore index = histogram.belowHighest :=
    ⟨top, (belowHighest_eq sound highest).symm⟩
  cases first : Nat.find reached with
  | zero =>
      have none := Nat.find_spec reached
      rw [first, countBefore_zero] at none
      exact absurd none crowded.ne
  | succ index =>
      have isReached := Nat.find_spec reached
      rw [first] at isReached
      refine ⟨index, ?_, isReached⟩
      intro none
      apply Nat.find_min reached (show index < Nat.find reached by omega)
      rw [← isReached, countBefore_succ, none, Nat.add_zero]

end LogLinear.Histogram
