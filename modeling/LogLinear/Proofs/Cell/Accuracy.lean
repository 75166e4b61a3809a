import LogLinear.Proofs.Cell.Edge

/-!
Contract: the error that is made by reporting the largest value of a cell for the values in it.

Owns:
- the width of the cells of octave 0, which is the unit;
- the width of all other cells, which is at most the asked-for part of the values in them;
- the distance of a value from the largest one of its cell.

The bounds hold for values beyond the trackable range as well.

Does not own: what is reported for a whole histogram.
-/

namespace LogLinear.Layout

variable (layout : Layout)

theorem two_pow_unitLog_le_lowest : 2 ^ layout.unitLog ≤ layout.requirement.lowest := by
  rw [layout.unitLog_eq, Requirement.unitLog]
  exact Nat.log2_self_le (Nat.ne_of_gt layout.lowest_pos)

/-- Half the divisions of an octave are enough for the figures asked for: the lower half of a later
octave, which has no cells of its own, is that many divisions wide. -/
theorem ten_pow_figures_le : 10 ^ layout.requirement.figures ≤ 2 ^ layout.halfLog := by
  have covered : 2 * 10 ^ layout.requirement.figures - 1 < 2 ^ (layout.halfLog + 1) := by
    rw [layout.halfLog_eq]
    exact Nat.lt_log2_self
  rw [pow_succ] at covered
  omega

theorem divisionCount_mul_unit :
    layout.divisionCount * 2 ^ layout.unitLog = 2 ^ (layout.baseLog + 1) := by
  rw [divisionCount, Nat.shiftLeft_eq, one_mul, ← pow_add, baseLog]
  congr 1
  omega

theorem octave_eq_zero_iff {value : Nat} :
    layout.octave value = 0 ↔ value < layout.divisionCount * 2 ^ layout.unitLog := by
  rw [divisionCount_mul_unit]
  constructor
  · intro first
    simpa [first] using layout.lt_two_pow_octave value
  · intro below
    by_contra later
    have above := layout.two_pow_octave_le (Nat.pos_of_ne_zero later)
    have grown : 2 ^ (layout.baseLog + 1) ≤ 2 ^ (layout.baseLog + layout.octave value) :=
      Nat.pow_le_pow_right Nat.two_pos (by omega)
    omega

theorem width_of_octave_eq_zero {value : Nat} (first : layout.octave value = 0) :
    layout.width value = 2 ^ layout.unitLog := by
  rw [width_eq, first, Nat.zero_add]

/-- In a later octave at least half of the divisions lie below a value. -/
theorem width_mul_ten_pow_le {value : Nat} (later : 0 < layout.octave value) :
    layout.width value * 10 ^ layout.requirement.figures ≤ layout.floor value := by
  have divisions : 10 ^ layout.requirement.figures ≤ layout.division value :=
    layout.ten_pow_figures_le.trans ((layout.isPlace_value value).upper later)
  rw [floor, Nat.mul_comm]
  exact Nat.mul_le_mul_right _ divisions

theorem ceiling_sub_lt_width (value : Nat) : layout.ceiling value - value < layout.width value := by
  have positive := layout.width_pos value
  have low := layout.floor_le value
  rw [ceiling]
  omega

/-- A cell of one unit holds but one value when the unit is 1. -/
theorem cell_eq_cell_iff_of_width_eq_one {value other : Nat} (single : layout.width value = 1) :
    layout.cell other = layout.cell value ↔ other = value := by
  have low := layout.floor_le value
  have high := layout.lt_floor_add_width value
  rw [cell_eq_cell_iff, ceiling, single]
  omega

/-- The reported value is accurate to the figures asked for. A cell is one unit wide, or so narrow
that the power of ten of its width is not above its least value. So what is reported for a value is
not below it, and exceeds it by less than the lowest value to be told apart from zero or by less than
the part of it that the figures allow. The values of octave 0 are in the first case, and are counted
exactly if single values are to be told apart. -/
theorem ceiling_accurate_to_figures (value : Nat) :
    (layout.width value = 2 ^ layout.unitLog ∧ 2 ^ layout.unitLog ≤ layout.requirement.lowest ∨
      layout.width value * 10 ^ layout.requirement.figures ≤ layout.floor value) ∧
    (value ≤ layout.ceiling value ∧
      (layout.ceiling value - value < layout.requirement.lowest ∨
        (layout.ceiling value - value) * 10 ^ layout.requirement.figures < value)) ∧
    (value < layout.divisionCount * 2 ^ layout.unitLog →
      layout.width value = 2 ^ layout.unitLog ∧
        layout.ceiling value - value < layout.requirement.lowest ∧
        (layout.requirement.lowest = 1 →
          ∀ other, layout.cell other = layout.cell value ↔ other = value)) := by
  have unit := layout.two_pow_unitLog_le_lowest
  have error := layout.ceiling_sub_lt_width value
  rw [← octave_eq_zero_iff]
  rcases Nat.eq_zero_or_pos (layout.octave value) with first | later
  · have single := layout.width_of_octave_eq_zero first
    have near : layout.ceiling value - value < layout.requirement.lowest :=
      (error.trans_eq single).trans_le unit
    refine ⟨.inl ⟨single, unit⟩, ⟨layout.le_ceiling value, .inl near⟩, fun _ => ⟨single, near, ?_⟩⟩
    intro lowest other
    have one : layout.width value = 1 := by
      have positive := layout.width_pos value
      omega
    exact layout.cell_eq_cell_iff_of_width_eq_one one
  · have narrow := layout.width_mul_ten_pow_le later
    have small : (layout.ceiling value - value) * 10 ^ layout.requirement.figures < value := by
      calc (layout.ceiling value - value) * 10 ^ layout.requirement.figures
          < layout.width value * 10 ^ layout.requirement.figures :=
            Nat.mul_lt_mul_of_pos_right error (Nat.pow_pos (by decide))
        _ ≤ layout.floor value := narrow
        _ ≤ value := layout.floor_le value
    exact ⟨.inr narrow, ⟨layout.le_ceiling value, .inr small⟩, fun first => absurd first later.ne'⟩

end LogLinear.Layout
