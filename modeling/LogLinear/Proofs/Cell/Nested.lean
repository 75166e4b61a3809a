import LogLinear.Proofs.Cell.Edge

/-!
Contract: layouts of which one is at least as fine as another.

Both cut the words at multiples of powers of two, so each edge of the coarser layout is one of the
finer layout too.

Owns:
- the comparison of two layouts by their units and their divisions;
- the cells of the finer layout, each of which lies within one of the coarser layout;
- values that are taken to the start of their fine cell and brought below a limit, in either order.

Does not own: the ranges of the layouts, which may differ in any way.
-/

namespace LogLinear.Layout

/-- One layout is at least as fine as another: its unit is not larger, and its octaves do not have
fewer divisions. -/
structure Refines (fine coarse : Layout) : Prop where
  unitLog_le : fine.unitLog ≤ coarse.unitLog
  divisionCount_le : coarse.divisionCount ≤ fine.divisionCount

/-- The width of a cell has two lower bounds: the unit, and the part of the value that one division
is. It is the larger one of them. -/
theorem octave_add_unitLog (layout : Layout) (value : Nat) :
    layout.octave value + layout.unitLog = max (value.log2 - layout.halfLog) layout.unitLog := by
  rw [octave_eq, baseLog]
  omega

namespace Refines

variable {fine coarse : Layout} (refines : fine.Refines coarse)
include refines

theorem halfLog_le : coarse.halfLog ≤ fine.halfLog := by
  have divisions := refines.divisionCount_le
  rw [divisionCount, divisionCount, Nat.shiftLeft_eq, Nat.shiftLeft_eq, one_mul, one_mul]
    at divisions
  exact Nat.le_of_succ_le_succ ((Nat.pow_le_pow_iff_right (by decide)).mp divisions)

theorem width_dvd (value : Nat) : fine.width value ∣ coarse.width value := by
  have units := refines.unitLog_le
  have halves := refines.halfLog_le
  rw [width_eq, width_eq, octave_add_unitLog, octave_add_unitLog]
  exact pow_dvd_pow 2 (max_le_max (Nat.sub_le_sub_left halves _) units)

/-- The start of the coarse cell is a multiple of the fine width, and the start of the fine cell is
the greatest one up to the value. -/
theorem floor_le_floor (value : Nat) : coarse.floor value ≤ fine.floor value := by
  obtain ⟨ratio, width⟩ := refines.width_dvd value
  have multiple : coarse.floor value = coarse.division value * ratio * fine.width value := by
    rw [floor, width, Nat.mul_assoc, Nat.mul_comm ratio]
  have below := coarse.floor_le value
  rw [multiple] at below ⊢
  rw [floor, fine.division_eq]
  exact Nat.mul_le_mul_right _ ((Nat.le_div_iff_mul_le (fine.width_pos value)).mpr below)

/-- Rounding down to the fine cell stays within the coarse one. -/
theorem cell_floor (value : Nat) : coarse.cell (fine.floor value) = coarse.cell value :=
  coarse.cell_eq_cell_iff.mpr
    ⟨refines.floor_le_floor value, (fine.floor_le value).trans (coarse.le_ceiling value)⟩

/-- A value above a limit may be rounded down below it. It is in the coarse cell of the limit then,
as cells follow the order of the values. -/
theorem cell_min_floor (value limit : Nat) :
    coarse.cell (min (fine.floor value) limit) = coarse.cell (min value limit) := by
  rw [coarse.cell_mono.map_min, coarse.cell_mono.map_min, refines.cell_floor]

end Refines

end LogLinear.Layout
