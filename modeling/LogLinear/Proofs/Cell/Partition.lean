import LogLinear.Proofs.Cell.Edge

/-!
Contract: the cells of a layout cut the word range into pieces that follow one another.

Owns:
- the middle of a cell and the start of the one after it;
- the agreement of all functions on cells about where a cell begins and ends.

Does not own: the part of the word range that has counters. `LogLinear.Proofs.Cell.Range` does.
-/

namespace LogLinear.Layout

variable (layout : Layout)

theorem floor_le_middle {value : Nat} (word : value ≤ Word.max) :
    layout.floor value ≤ layout.middle value := by
  rw [middle, Word.cap]
  exact le_min (Nat.le_add_right _ _) (layout.floor_le_of_word word)

theorem middle_le_ceiling (value : Nat) : layout.middle value ≤ layout.ceiling value := by
  have positive := layout.width_pos value
  have half : layout.width value >>> 1 ≤ layout.width value - 1 := by
    rw [Nat.shiftRight_one]
    omega
  rw [middle, Word.cap, ceiling]
  exact (Nat.min_le_left _ _).trans (Nat.add_le_add_left half _)

/-- The value after a cell is the start of the next cell, as long as it is a word. -/
theorem ceiling_add_one_eq_start {value : Nat} (word : value ≤ Word.max)
    (notLast : layout.ceiling value ≠ Word.max) :
    layout.ceiling value + 1 = layout.start (layout.cell value + 1) := by
  have inside := layout.ceiling_le_of_word word
  rw [start_eq, ← ceiling_add_one, Word.cap_of_le (by omega)]

theorem start_succ_of_ceiling_eq_max {value : Nat} (last : layout.ceiling value = Word.max) :
    layout.start (layout.cell value + 1) = Word.max := by
  rw [start_eq, ← ceiling_add_one, last, Word.cap_of_ge (Nat.le_succ _)]

theorem width_eq_ceiling_sub_floor (value : Nat) :
    layout.width value = layout.ceiling value - layout.floor value + 1 := by
  have positive := layout.width_pos value
  rw [ceiling]
  omega

/-- The cells partition the word range. Every value lies between the bounds of its cell, the values
between these bounds are those of the same counter, the starts of the cells are read back from their
indices, each cell begins where the one before ends, and the widths do not decrease. -/
theorem cells_partition_words {value other index : Nat} (word : value ≤ Word.max)
    (inside : index ≤ layout.cell Word.max) :
    (layout.start (layout.cell value) = layout.floor value ∧ layout.floor value ≤ value ∧
      value ≤ layout.ceiling value ∧ layout.ceiling value ≤ Word.max) ∧
    ((layout.cell other = layout.cell value ↔
        layout.floor value ≤ other ∧ other ≤ layout.ceiling value) ∧
      (layout.cell other = layout.cell value ↔ layout.floor other = layout.floor value) ∧
      (layout.Equivalent other value ↔ layout.cell other = layout.cell value)) ∧
    layout.cell (layout.start index) = index ∧
    ((layout.ceiling value ≠ Word.max →
        layout.ceiling value + 1 = layout.start (layout.cell value + 1) ∧
          layout.start (layout.cell value + 1) = layout.next value) ∧
      (layout.ceiling value = Word.max →
        layout.start (layout.cell value + 1) = Word.max ∧ layout.next value = Word.max)) ∧
    (layout.width value = layout.ceiling value - layout.floor value + 1 ∧
      (value ≤ other → layout.width value ≤ layout.width other)) ∧
    (layout.floor value ≤ layout.middle value ∧ layout.middle value ≤ layout.ceiling value) := by
  have same : layout.cell other = layout.cell value ↔ layout.floor other = layout.floor value :=
    layout.floor_eq_floor_iff.symm
  refine ⟨⟨layout.start_cell word, layout.floor_le value, layout.le_ceiling value,
      layout.ceiling_le_of_word word⟩, ⟨layout.cell_eq_cell_iff, same, same.symm⟩,
    layout.cell_start inside, ⟨?_, ?_⟩,
    ⟨layout.width_eq_ceiling_sub_floor value, fun ordered => layout.width_mono ordered⟩,
    layout.floor_le_middle word, layout.middle_le_ceiling value⟩
  · intro notLast
    exact ⟨layout.ceiling_add_one_eq_start word notLast, (layout.next_eq value).symm⟩
  · intro last
    have nextStart := layout.start_succ_of_ceiling_eq_max last
    exact ⟨nextStart, (layout.next_eq value).trans nextStart⟩

/-- Units of `2 ^ 50`, told apart to two figures up to the largest word. -/
def coarse : Layout where
  requirement := ⟨2 ^ 50, Word.max, 2, by decide, by decide⟩
  unitLog := 50
  halfLog := 7
  baseMask := 255 * 2 ^ 50
  octaveCount := 7
  unitLog_eq := by decide
  halfLog_eq := by decide
  baseMask_eq := by decide
  octaveCount_eq := by decide
  lowest_pos := by decide
  figures_le := by decide
  twice_lowest_le := by decide
  fits := by decide

/-- The last two cells of a coarse layout, which end at the largest word. -/
theorem coarse_cells_partition_words :
    (255 * 2 ^ 56 - 1 ≤ Word.max ∧ 1023 ≤ coarse.cell Word.max) ∧
    (coarse.start (coarse.cell (255 * 2 ^ 56 - 1)) = 254 * 2 ^ 56 ∧
      coarse.ceiling (255 * 2 ^ 56 - 1) = 255 * 2 ^ 56 - 1 ∧
      coarse.cell Word.max ≠ coarse.cell (255 * 2 ^ 56 - 1) ∧
      coarse.cell (coarse.start 1023) = 1023 ∧
      coarse.next (255 * 2 ^ 56 - 1) = 255 * 2 ^ 56) := by
  have words : 255 * 2 ^ 56 - 1 ≤ Word.max ∧ 1023 ≤ coarse.cell Word.max := by decide
  obtain ⟨bounds, same, read, chain, -, -⟩ :=
    @cells_partition_words coarse _ Word.max _ words.1 words.2
  have floorValue : coarse.floor (255 * 2 ^ 56 - 1) = 254 * 2 ^ 56 := by decide
  have ceilingValue : coarse.ceiling (255 * 2 ^ 56 - 1) = 255 * 2 ^ 56 - 1 := by decide
  have notLast : coarse.ceiling (255 * 2 ^ 56 - 1) ≠ Word.max := by decide
  refine ⟨words, bounds.1.trans floorValue, ceilingValue, ?_, read, ?_⟩
  · intro equal
    have enclosed := same.1.mp equal
    rw [ceilingValue] at enclosed
    exact absurd enclosed.2 (by decide)
  · obtain ⟨follows, isNext⟩ := chain.1 notLast
    rw [← isNext, ← follows, ceilingValue]
    decide

end LogLinear.Layout
