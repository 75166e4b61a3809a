import LogLinear.Layout.Cell
import Mathlib.Data.Nat.Log
import Mathlib.Tactic.Ring

/-!
Contract: places, which are the pairs of an octave and a division that values and indices have in
common.

Owns:
- the octave of a value as a difference of logarithms, and its monotonicity;
- the range of the division, of a value and of an index alike;
- the recovery of a place from its index.

Does not own: the order of the cells. `LogLinear.Proofs.Cell.Edge` has it.
-/

namespace LogLinear.Layout

variable (layout : Layout)

/-! ### Values -/

theorem baseLog_le : layout.baseLog ≤ 61 := layout.fits

theorem unitLog_le : layout.unitLog ≤ 61 := (Nat.le_add_right _ _).trans layout.fits

theorem unitMask_eq : layout.unitMask = 2 ^ layout.unitLog - 1 := by
  rw [unitMask, Nat.shiftLeft_eq, one_mul]

theorem baseMask_eq_mul :
    layout.baseMask = (2 ^ (layout.halfLog + 1) - 1) * 2 ^ layout.unitLog := by
  rw [layout.baseMask_eq, Requirement.baseMask, Nat.shiftLeft_eq, Nat.shiftLeft_eq, one_mul,
    ← layout.halfLog_eq, ← layout.unitLog_eq]

theorem baseMask_lt : layout.baseMask < 2 ^ (layout.baseLog + 1) := by
  have split : 2 ^ (layout.baseLog + 1) = 2 ^ (layout.halfLog + 1) * 2 ^ layout.unitLog := by
    rw [← pow_add, baseLog]
    congr 1
    omega
  rw [baseMask_eq_mul, split]
  exact Nat.mul_lt_mul_of_pos_right (Nat.sub_lt (Nat.two_pow_pos _) Nat.one_pos)
    (Nat.two_pow_pos _)

theorem le_baseMask : 2 ^ layout.baseLog ≤ layout.baseMask := by
  have split : 2 ^ layout.baseLog = 2 ^ layout.halfLog * 2 ^ layout.unitLog := by
    rw [← pow_add, baseLog, Nat.add_comm]
  have positive : 0 < 2 ^ layout.halfLog := Nat.two_pow_pos _
  rw [baseMask_eq_mul, split]
  refine Nat.mul_le_mul_right _ ?_
  rw [pow_succ]
  omega

/-- Setting the bits of octave 0 only raises the logarithm of a value that is below them. -/
theorem octave_eq (value : Nat) : layout.octave value = value.log2 - layout.baseLog := by
  unfold octave
  have maskBelow := layout.baseMask_lt
  have maskAbove := layout.le_baseMask
  have maskPositive : 0 < 2 ^ layout.baseLog := Nat.two_pow_pos _
  have leOr : layout.baseMask ≤ value ||| layout.baseMask := Nat.right_le_or
  by_cases small : value < 2 ^ (layout.baseLog + 1)
  · have orLog : (value ||| layout.baseMask).log2 = layout.baseLog :=
      (Nat.log2_eq_iff (by omega)).mpr ⟨by omega, Nat.or_lt_two_pow small maskBelow⟩
    have valueLog : value.log2 ≤ layout.baseLog := by
      by_cases isZero : value = 0
      · simp [isZero]
      · exact Nat.le_of_lt_succ ((Nat.log2_lt isZero).mpr small)
    omega
  · have notZero : value ≠ 0 := by omega
    have above : layout.baseLog + 1 ≤ value.log2 := (Nat.le_log2 notZero).mpr (by omega)
    have maskSmall : layout.baseMask < 2 ^ (value.log2 + 1) :=
      maskBelow.trans_le (Nat.pow_le_pow_right (by decide) (by omega))
    have orLog : (value ||| layout.baseMask).log2 = value.log2 :=
      (Nat.log2_eq_iff (by omega)).mpr
        ⟨(Nat.log2_self_le notZero).trans Nat.left_le_or,
          Nat.or_lt_two_pow Nat.lt_log2_self maskSmall⟩
    rw [orLog]

theorem octave_mono : Monotone layout.octave := by
  intro lower upper ordered
  rw [octave_eq, octave_eq, Nat.log2_eq_log_two, Nat.log2_eq_log_two]
  exact Nat.sub_le_sub_right (Nat.log_mono_right ordered) _

theorem lt_two_pow_octave (value : Nat) :
    value < 2 ^ (layout.baseLog + layout.octave value + 1) := by
  have bound : value.log2 + 1 ≤ layout.baseLog + layout.octave value + 1 := by
    rw [octave_eq]
    omega
  exact Nat.lt_log2_self.trans_le (Nat.pow_le_pow_right (by decide) bound)

theorem two_pow_octave_le {value : Nat} (later : 0 < layout.octave value) :
    2 ^ (layout.baseLog + layout.octave value) ≤ value := by
  rw [octave_eq] at later ⊢
  have notZero : value ≠ 0 := by
    rintro rfl
    simp at later
  have exponent : layout.baseLog + (value.log2 - layout.baseLog) = value.log2 := by omega
  rw [exponent]
  exact Nat.log2_self_le notZero

theorem octave_le_of_word {value : Nat} (word : value ≤ Word.max) :
    layout.octave value + layout.baseLog ≤ 63 := by
  have base := layout.baseLog_le
  have bound : value.log2 ≤ 63 := by
    by_cases isZero : value = 0
    · simp [isZero]
    · refine Nat.le_of_lt_succ ((Nat.log2_lt isZero).mpr ?_)
      have : Word.max < 2 ^ 64 := by decide
      omega
  rw [octave_eq]
  omega

theorem width_eq (value : Nat) :
    layout.width value = 2 ^ (layout.octave value + layout.unitLog) := by
  rw [width, Nat.shiftLeft_eq, one_mul, Nat.add_comm]

theorem width_pos (value : Nat) : 0 < layout.width value := by
  rw [width_eq]
  exact Nat.two_pow_pos _

theorem width_mono : Monotone layout.width := by
  intro lower upper ordered
  rw [width_eq, width_eq]
  have octaves := layout.octave_mono ordered
  exact Nat.pow_le_pow_right (by decide) (by omega)

theorem division_eq (value : Nat) : layout.division value = value / layout.width value := by
  rw [division, Nat.shiftRight_eq_div_pow, width_eq]

theorem cell_eq (value : Nat) :
    layout.cell value = layout.octave value * 2 ^ layout.halfLog + layout.division value := by
  rw [cell, Nat.shiftLeft_eq]

theorem floor_le (value : Nat) : layout.floor value ≤ value := by
  rw [floor, division_eq]
  exact Nat.div_mul_le_self _ _

theorem lt_floor_add_width (value : Nat) : value < layout.floor value + layout.width value := by
  rw [floor, division_eq]
  exact Nat.lt_div_mul_add (layout.width_pos value)

/-! ### Places -/

/-- The divisions that an octave has counters for: all of octave 0, and the upper half of a later
one. -/
structure IsPlace (octave division : Nat) : Prop where
  below : division < 2 ^ (layout.halfLog + 1)
  upper : 0 < octave → 2 ^ layout.halfLog ≤ division

theorem isPlace_value (value : Nat) :
    layout.IsPlace (layout.octave value) (layout.division value) where
  below := by
    rw [division_eq, Nat.div_lt_iff_lt_mul (layout.width_pos value), width_eq, ← pow_add]
    have exponent : layout.halfLog + 1 + (layout.octave value + layout.unitLog) =
        layout.baseLog + layout.octave value + 1 := by
      rw [baseLog]
      omega
    rw [exponent]
    exact layout.lt_two_pow_octave value
  upper later := by
    rw [division_eq, Nat.le_div_iff_mul_le (layout.width_pos value), width_eq, ← pow_add]
    have exponent : layout.halfLog + (layout.octave value + layout.unitLog) =
        layout.baseLog + layout.octave value := by
      rw [baseLog]
      omega
    rw [exponent]
    exact layout.two_pow_octave_le later

theorem octaveAt_eq (index : Nat) : layout.octaveAt index = index / 2 ^ layout.halfLog - 1 := by
  rw [octaveAt, Nat.shiftRight_eq_div_pow]

theorem octaveAt_mul_le (index : Nat) : layout.octaveAt index * 2 ^ layout.halfLog ≤ index := by
  rw [octaveAt_eq]
  exact (Nat.mul_le_mul_right _ (Nat.sub_le _ _)).trans (Nat.div_mul_le_self _ _)

/-- An index is the octave and the division at it, put together. -/
theorem octaveAt_mul_add_divisionAt (index : Nat) :
    layout.octaveAt index * 2 ^ layout.halfLog + layout.divisionAt index = index := by
  rw [divisionAt, Nat.shiftLeft_eq, Nat.add_sub_cancel' (layout.octaveAt_mul_le index)]

theorem isPlace_index (index : Nat) :
    layout.IsPlace (layout.octaveAt index) (layout.divisionAt index) := by
  have positive : 0 < 2 ^ layout.halfLog := Nat.two_pow_pos _
  have whole := layout.octaveAt_mul_add_divisionAt index
  have low := Nat.div_mul_le_self index (2 ^ layout.halfLog)
  have high := Nat.lt_div_mul_add (a := index) positive
  rw [octaveAt_eq] at whole
  rw [octaveAt_eq]
  cases quotient : index / 2 ^ layout.halfLog with
  | zero =>
      simp only [quotient, Nat.zero_sub, Nat.zero_mul, Nat.zero_add] at whole high
      exact ⟨by rw [pow_succ]; omega, by simp⟩
  | succ octave =>
      simp only [quotient, Nat.add_sub_cancel, Nat.succ_mul] at whole low high
      exact ⟨by rw [pow_succ]; omega, fun _ => by omega⟩

/-- The octave of a place is read back from its index. -/
theorem octaveAt_of_isPlace {octave division : Nat} (place : layout.IsPlace octave division) :
    layout.octaveAt (octave * 2 ^ layout.halfLog + division) = octave := by
  obtain ⟨below, upper⟩ := place
  have positive : 0 < 2 ^ layout.halfLog := Nat.two_pow_pos _
  rw [octaveAt_eq, Nat.add_comm, Nat.add_mul_div_right _ _ positive]
  rw [pow_succ] at below
  cases octave with
  | zero =>
      have small : division / 2 ^ layout.halfLog < 2 := by
        rw [Nat.div_lt_iff_lt_mul positive]
        omega
      omega
  | succ octave =>
      have one : division / 2 ^ layout.halfLog = 1 := by
        have atLeast := upper (Nat.succ_pos octave)
        rw [Nat.div_eq_iff positive]
        omega
      omega

theorem divisionAt_of_isPlace {octave division : Nat} (place : layout.IsPlace octave division) :
    layout.divisionAt (octave * 2 ^ layout.halfLog + division) = division := by
  have whole := layout.octaveAt_mul_add_divisionAt (octave * 2 ^ layout.halfLog + division)
  rw [layout.octaveAt_of_isPlace place] at whole
  exact Nat.add_left_cancel whole

theorem octaveAt_cell (value : Nat) : layout.octaveAt (layout.cell value) = layout.octave value := by
  rw [cell_eq, layout.octaveAt_of_isPlace (layout.isPlace_value value)]

theorem divisionAt_cell (value : Nat) :
    layout.divisionAt (layout.cell value) = layout.division value := by
  rw [cell_eq, layout.divisionAt_of_isPlace (layout.isPlace_value value)]

end LogLinear.Layout
