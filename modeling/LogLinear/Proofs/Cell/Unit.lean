import LogLinear.Proofs.Cell.Range

/-!
Contract: units, the smallest ranges of values that a layout might tell apart.

Owns:
- values of one unit, which share their cell;
- the bits within the unit of a value, which may be set or cleared without leaving its cell;
- the first unit, which is the cell of zero.

Does not own: what is kept of a recorded value.
-/

namespace LogLinear.Layout

variable (layout : Layout)

theorem two_pow_unitLog_dvd_edge (index : Nat) : 2 ^ layout.unitLog ∣ layout.edge index := by
  rw [edge, pow_add, ← mul_assoc]
  exact Nat.dvd_mul_left _ _

/-- No edge lies within a unit, so no cell ends there. -/
theorem cell_eq_of_unit_eq {value other : Nat}
    (same : value >>> layout.unitLog = other >>> layout.unitLog) :
    layout.cell value = layout.cell other := by
  rw [Nat.shiftRight_eq_div_pow, Nat.shiftRight_eq_div_pow] at same
  refine eq_of_forall_le_iff fun index => ?_
  obtain ⟨units, isEdge⟩ := layout.two_pow_unitLog_dvd_edge index
  have positive : 0 < 2 ^ layout.unitLog := Nat.two_pow_pos _
  rw [← edge_le_iff, ← edge_le_iff, isEdge, mul_comm, ← Nat.le_div_iff_mul_le positive, same,
    Nat.le_div_iff_mul_le positive]

/-! ### The bits within a unit -/

/-- A word is made of whole units. -/
theorem two_pow_mul_two_pow_unitLog :
    2 ^ (64 - layout.unitLog) * 2 ^ layout.unitLog = 2 ^ 64 := by
  rw [← pow_add, Nat.sub_add_cancel (layout.unitLog_le.trans (by decide))]

theorem unitMask_shiftRight : layout.unitMask >>> layout.unitLog = 0 := by
  rw [unitMask_eq, Nat.shiftRight_eq_div_pow]
  exact Nat.div_eq_of_lt (Nat.sub_lt (Nat.two_pow_pos _) Nat.one_pos)

theorem complement_unitMask_shiftRight :
    Word.complement layout.unitMask >>> layout.unitLog = 2 ^ (64 - layout.unitLog) - 1 := by
  have words : Word.max + 1 = 2 ^ 64 := by decide
  have high : Word.complement layout.unitMask =
      (2 ^ (64 - layout.unitLog) - 1) * 2 ^ layout.unitLog := by
    have positive : 0 < 2 ^ layout.unitLog := Nat.two_pow_pos _
    rw [Word.complement, unitMask_eq, Nat.sub_one_mul, two_pow_mul_two_pow_unitLog, ← words]
    omega
  rw [high, Nat.shiftRight_eq_div_pow, Nat.mul_div_cancel _ (Nat.two_pow_pos _)]

/-- Setting the bits within its unit keeps a value in its cell. -/
theorem cell_or_unitMask (value : Nat) :
    layout.cell (value ||| layout.unitMask) = layout.cell value := by
  apply layout.cell_eq_of_unit_eq
  rw [Nat.shiftRight_or_distrib, unitMask_shiftRight, Nat.or_zero]

/-- Clearing the bits within its unit keeps a word in its cell. -/
theorem cell_and_complement_unitMask {value : Nat} (word : value ≤ Word.max) :
    layout.cell (value &&& Word.complement layout.unitMask) = layout.cell value := by
  apply layout.cell_eq_of_unit_eq
  have few : value >>> layout.unitLog < 2 ^ (64 - layout.unitLog) := by
    rw [Nat.shiftRight_eq_div_pow, Nat.div_lt_iff_lt_mul (Nat.two_pow_pos _),
      two_pow_mul_two_pow_unitLog]
    exact Nat.lt_succ_of_le word
  rw [Nat.shiftRight_and_distrib, complement_unitMask_shiftRight,
    Nat.and_two_pow_sub_one_of_lt_two_pow few]

theorem or_unitMask_le {value : Nat} (word : value ≤ Word.max) :
    value ||| layout.unitMask ≤ Word.max := by
  have inside : layout.unitMask < 2 ^ 64 := by
    rw [unitMask_eq]
    exact (Nat.sub_lt (Nat.two_pow_pos _) Nat.one_pos).trans_le
      (Nat.pow_le_pow_right Nat.two_pos (layout.unitLog_le.trans (by decide)))
  exact Nat.le_of_lt_succ (Nat.or_lt_two_pow (Nat.lt_succ_of_le word) inside)

/-! ### The first unit -/

theorem cell_zero : layout.cell 0 = 0 := by
  have isEdge := layout.cell_edge 0
  rwa [edge_zero] at isEdge

/-- The values beyond the first unit are those that do not share the cell of zero. -/
theorem unitMask_lt_iff {value : Nat} : layout.unitMask < value ↔ layout.cell value ≠ 0 := by
  have positive : 0 < 2 ^ layout.unitLog := Nat.two_pow_pos _
  rw [← Nat.one_le_iff_ne_zero, ← edge_le_iff, edge_one, unitMask_eq]
  omega

theorem ceiling_zero : layout.ceiling 0 = layout.unitMask := by
  have next := layout.ceiling_add_one 0
  rw [cell_zero, Nat.zero_add, edge_one] at next
  rw [unitMask_eq]
  omega

end LogLinear.Layout
