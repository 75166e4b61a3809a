import LogLinear.Histogram.Summary
import LogLinear.Proofs.Histogram.Sound

/-!
Contract: the least and the greatest recorded value as bounds of cells.

The extent keeps neither of them as such. The greatest value is read from it, the least one only if
the cell of zero holds no count.

Owns:
- the lowest and the highest cell that hold a count, where anything was recorded;
- the minimum and the maximum as the bounds of these cells, or zero where nothing was recorded;
- histograms with the same counters, whose extremes are the same whatever their extents are.

Does not own: how the extent is kept. `LogLinear.Proofs.Histogram.Sound` does.
-/

namespace LogLinear.Histogram

section Bounds

variable {histogram : Histogram} {index : Nat} (sound : histogram.Sound)
include sound

theorem exists_lowest (recorded : 0 < histogram.total) :
    ∃ index, IsLeast histogram.held index := by
  by_cases zero : 0 ∈ histogram.held
  · exact ⟨0, zero, fun _ _ => Nat.zero_le _⟩
  · have isLow := sound.spans.isLow
    rw [Set.sdiff_singleton_eq_self zero] at isLow
    rcases isLow with ⟨none, -⟩ | least
    · exact absurd ((held_eq_empty_iff_total sound).mp none) recorded.ne'
    · exact ⟨_, least⟩

theorem exists_highest (recorded : 0 < histogram.total) :
    ∃ index, IsGreatest histogram.held index := by
  rcases sound.spans.isHigh with ⟨none, -⟩ | ⟨-, greatest⟩
  · exact absurd ((held_eq_empty_iff_total sound).mp none) recorded.ne'
  · exact ⟨_, greatest⟩

theorem total_pos_of_mem (member : index ∈ histogram.held) : 0 < histogram.total :=
  (Nat.pos_of_ne_zero member).trans_le (count_le_total sound index)

theorem extremes_of_held_eq_empty (empty : histogram.held = ∅) :
    histogram.minimum = 0 ∧ histogram.maximum = 0 := by
  have spans := sound.spans
  rw [empty] at spans
  have noExtent := histogram.layout.eq_empty_of_spans spans
  constructor
  · exact if_pos (.inl ((held_eq_empty_iff_total sound).mp empty))
  · exact if_pos (congrArg Extent.greatest noExtent)

theorem minimum_eq_start (lowest : IsLeast histogram.held index) :
    histogram.minimum = histogram.start index := by
  have recorded := total_pos_of_mem sound lowest.1
  by_cases isZero : index = 0
  · subst isZero
    exact (if_pos (.inr lowest.1)).trans histogram.layout.start_zero.symm
  · have none : 0 ∉ histogram.held := fun zero => isZero (Nat.le_zero.mp (lowest.2 zero))
    have isLow := sound.spans.isLow
    rw [Set.sdiff_singleton_eq_self none] at isLow
    rcases isLow with ⟨empty, -⟩ | least
    · exact absurd lowest.1 (empty ▸ Set.notMem_empty index)
    · have isRead : ¬ (histogram.total = 0 ∨ histogram.count 0 ≠ 0) :=
        not_or.mpr ⟨recorded.ne', none⟩
      rw [minimum, if_neg isRead, ← least.unique lowest, start,
        histogram.layout.start_cell sound.spans.least_le]

/-- If the greatest value is zero although something was recorded, a unit has no bits, and zero is
the whole of its cell. -/
theorem maximum_eq_ceiling (highest : IsGreatest histogram.held index) :
    histogram.maximum = histogram.layout.ceiling (histogram.start index) := by
  rcases sound.spans.isHigh with ⟨empty, -⟩ | ⟨mask, greatest⟩
  · exact absurd highest.1 (empty ▸ Set.notMem_empty index)
  · have reported : histogram.layout.ceiling histogram.extent.greatest =
        histogram.layout.ceiling (histogram.start index) := by
      rw [← greatest.unique highest, start, histogram.layout.start_cell sound.spans.greatest_le]
      exact (histogram.layout.ceiling_eq_ceiling (histogram.layout.cell_floor _)).symm
    rw [maximum, ← reported]
    split
    · rename_i zero
      rw [zero, Layout.ceiling_zero]
      exact (Nat.le_zero.mp (zero ▸ mask)).symm
    · rfl

end Bounds

/-- Extents may differ within the cells at their ends, but the extremes are those of the counters. -/
theorem extremes_eq {left right : Histogram} (leftSound : left.Sound) (rightSound : right.Sound)
    (layout : left.layout = right.layout) (counters : left.counters = right.counters) :
    left.minimum = right.minimum ∧ left.maximum = right.maximum := by
  have held : left.held = right.held := by
    ext index
    simp only [Histogram.held, Histogram.count, counters]
  rcases Nat.eq_zero_or_pos left.total with none | recorded
  · have empty := (held_eq_empty_iff_total leftSound).mpr none
    obtain ⟨leftLeast, leftGreatest⟩ := extremes_of_held_eq_empty leftSound empty
    obtain ⟨rightLeast, rightGreatest⟩ := extremes_of_held_eq_empty rightSound (held ▸ empty)
    exact ⟨leftLeast.trans rightLeast.symm, leftGreatest.trans rightGreatest.symm⟩
  · obtain ⟨first, lowest⟩ := exists_lowest leftSound recorded
    obtain ⟨last, highest⟩ := exists_highest leftSound recorded
    constructor
    · rw [minimum_eq_start leftSound lowest, minimum_eq_start rightSound (held ▸ lowest), start,
        start, layout]
    · rw [maximum_eq_ceiling leftSound highest, maximum_eq_ceiling rightSound (held ▸ highest),
        start, start, layout]

end LogLinear.Histogram
