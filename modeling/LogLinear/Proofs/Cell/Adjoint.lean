import LogLinear.Proofs.Cell.Checked

/-!
Contract: the starts of the cells and the lookup of values, as functions that determine one another.

The start at an index is a product, unless one of four limits keeps it from being one: the product
may be no word, the shift may be as far as a word is long, the sum that says how far may have more
than thirty-two bits, and so may the octave. At a limit the start is the largest word.

Owns:
- the first index at which each of the limits is reached;
- the order of the starts, which increase up to the cell of the largest word and then stay;
- the starts up to a value, which are those at the indices up to its cell.

Does not own: the bounds of a single cell. `LogLinear.Proofs.Cell.Partition` does.
-/

namespace LogLinear

namespace Machine

theorem add?_eq_none_iff {bits left right : Nat} :
    add? bits left right = none ↔ 2 ^ bits ≤ left + right := by
  rw [add?, ite_eq_right_iff, ← not_lt]
  simp

end Machine

namespace Layout

variable (layout : Layout)

/-! ### The limits of the product -/

/-- A later octave has as many indices as half the divisions, and so has each one before it, but for
octave 0, which has them twice. -/
theorem le_octaveAt_iff {octave index : Nat} (later : 0 < octave) :
    octave ≤ layout.octaveAt index ↔ (octave + 1) * 2 ^ layout.halfLog ≤ index := by
  rw [← Nat.le_div_iff_mul_le (Nat.two_pow_pos _), octaveAt_eq]
  omega

/-- What is left of a bound without the unit is an octave, whose indices are known. -/
theorem le_octaveAt_add_unitLog_iff {bound index : Nat} (above : layout.unitLog < bound) :
    bound ≤ layout.octaveAt index + layout.unitLog ↔
      (bound + 1 - layout.unitLog) * 2 ^ layout.halfLog ≤ index := by
  have octave : bound + 1 - layout.unitLog = bound - layout.unitLog + 1 := by omega
  rw [octave, ← layout.le_octaveAt_iff (Nat.sub_pos_of_lt above), Nat.sub_le_iff_le_add]

/-- Each limit is reached at the first index of an octave and holds from there on. That of the
product comes first, so there is no gap between two of them. If later octaves have one cell each,
the limit of the shift is reached at the same index. -/
theorem limits_of_index (index : Nat) :
    (Word.max < layout.divisionAt index * 2 ^ (layout.octaveAt index + layout.unitLog) ↔
      (65 - layout.baseLog) * 2 ^ layout.halfLog ≤ index) ∧
    (64 ≤ layout.octaveAt index + layout.unitLog ↔
      (65 - layout.unitLog) * 2 ^ layout.halfLog ≤ index) ∧
    (Machine.add? 32 (layout.octaveAt index) layout.unitLog = none ↔
      (2 ^ 32 + 1 - layout.unitLog) * 2 ^ layout.halfLog ≤ index) ∧
    (2 ^ 32 ≤ layout.octaveAt index ↔ (2 ^ 32 + 1) * 2 ^ layout.halfLog ≤ index) := by
  have unit := layout.unitLog_le
  refine ⟨?product, ?shift, ?sum, ?octave⟩
  case product =>
    -- The limit of the product is the end of the word range, which is an edge.
    rw [← edge, Nat.lt_iff_add_one_le, ← edge_wordCells, layout.edge_strictMono.le_iff_le,
      wordCells]
  case shift =>
    exact layout.le_octaveAt_add_unitLog_iff (by omega)
  case sum =>
    rw [Machine.add?_eq_none_iff]
    exact layout.le_octaveAt_add_unitLog_iff (by omega)
  case octave =>
    exact layout.le_octaveAt_iff (by decide)

/-- Within the word range the shift is made, as its limit is not reached before that of the
product. -/
theorem octaveAt_add_unitLog_lt {index : Nat} (inside : index ≤ layout.cell Word.max) :
    layout.octaveAt index + layout.unitLog < 64 := by
  have before := layout.le_cell_max_iff.mp inside
  have later : layout.wordCells ≤ (65 - layout.unitLog) * 2 ^ layout.halfLog := by
    refine Nat.mul_le_mul_right _ ?_
    rw [baseLog]
    omega
  rw [← not_le, (layout.limits_of_index index).2.1]
  omega

/-! ### The order of the starts -/

/-- The last cell of the word range is more than one word wide, so it does not start at the largest
one. -/
theorem floor_max_lt : layout.floor Word.max < Word.max := by
  have fits := layout.fits
  have several : 1 < layout.width Word.max := by
    rw [width_eq, octave_eq, show Word.max.log2 = 63 by decide, baseLog]
    exact Nat.one_lt_two_pow (by omega)
  have last := layout.ceiling_le_of_word le_rfl
  rw [ceiling] at last
  omega

/-- The start is the largest word at the indices past the word range and nowhere else. -/
theorem start_lt_max_iff {index : Nat} :
    layout.start index < Word.max ↔ index ≤ layout.cell Word.max := by
  constructor
  · intro below
    rw [start_eq, Word.cap, min_lt_iff, or_iff_left (lt_irrefl _)] at below
    exact layout.edge_le_iff.mp below.le
  · intro inside
    calc layout.start index ≤ layout.start (layout.cell Word.max) := layout.start_mono inside
      _ = layout.floor Word.max := layout.start_cell le_rfl
      _ < Word.max := layout.floor_max_lt

theorem start_eq_max {index : Nat} (beyond : layout.cell Word.max < index) :
    layout.start index = Word.max := by
  refine le_antisymm (layout.start_le_max index) ?_
  rwa [← not_lt, start_lt_max_iff, not_le]

theorem start_strictMonoOn : StrictMonoOn layout.start (Set.Iic (layout.cell Word.max)) := by
  intro lower lowerInside upper upperInside ordered
  rw [layout.start_of_le_cell lowerInside, layout.start_of_le_cell upperInside]
  exact layout.edge_strictMono ordered

/-- Starts and lookups are adjoint. The starts do not decrease from index to index. Up to the cell
of the largest word they increase, and each is the product of a division and the width of the
divisions, with no limit reached; at every later index the start is the largest word. So the indices
whose starts are not above a value are those that are not above its cell. A machine finds the
octave, the division and the start at every index that is a word, and the cell of every value. -/
theorem start_cell_adjoint (layout : Layout) :
    (∀ index ≤ Word.max,
      Checked.place layout index = some (layout.octaveAt index, layout.divisionAt index) ∧
      Checked.start layout index = some (layout.start index)) ∧
    Monotone layout.start ∧
    StrictMonoOn layout.start (Set.Iic (layout.cell Word.max)) ∧
    (∀ index ≤ layout.cell Word.max,
      layout.octaveAt index + layout.unitLog < 64 ∧
      layout.start index =
        layout.divisionAt index * 2 ^ (layout.octaveAt index + layout.unitLog) ∧
      layout.start index < Word.max) ∧
    (∀ index, layout.cell Word.max < index → layout.start index = Word.max) ∧
    (∀ value ≤ Word.max,
      Checked.cell layout value = some (layout.cell value) ∧
      ∀ index ≤ layout.cell Word.max,
        layout.start index ≤ value ↔ index ≤ layout.cell value) := by
  refine ⟨?machine, layout.start_mono, layout.start_strictMonoOn, ?exact, ?capped, ?adjoint⟩
  case machine =>
    intro index word
    exact ⟨checked_place word, checked_start word⟩
  case exact =>
    intro index inside
    exact ⟨layout.octaveAt_add_unitLog_lt inside, layout.start_of_le_cell inside,
      layout.start_lt_max_iff.mpr inside⟩
  case capped =>
    intro index beyond
    exact layout.start_eq_max beyond
  case adjoint =>
    intro value word
    refine ⟨checked_cell word, fun index inside => ?_⟩
    rw [layout.start_of_le_cell inside, edge_le_iff]

/-- The last cells of the word range in a layout of whole octaves. Past them the shift is out of
reach at once. -/
theorem dyadic_start_cell_adjoint :
    (64 ≤ dyadic.cell Word.max ∧ dyadic.cell Word.max < 65 ∧ 65 ≤ Word.max ∧
      2 ^ 63 - 1 ≤ Word.max) ∧
    dyadic.start 63 < dyadic.start 64 ∧ dyadic.start 64 = 1 * 2 ^ 63 ∧
    dyadic.start 65 = Word.max ∧ 64 ≤ dyadic.octaveAt 65 + dyadic.unitLog ∧
    Checked.start .dyadic 65 = some Word.max ∧
    ¬ dyadic.start 64 ≤ 2 ^ 63 - 1 := by
  have last : 64 ≤ dyadic.cell Word.max ∧ dyadic.cell Word.max < 65 := by decide
  have words : 65 ≤ Word.max ∧ 2 ^ 63 - 1 ≤ Word.max := by decide
  obtain ⟨machine, -, increasing, exact, capped, adjoint⟩ := start_cell_adjoint .dyadic
  have beyond : dyadic.start 65 = Word.max := capped 65 last.2
  refine ⟨⟨last.1, last.2, words⟩, ?_, ?_, beyond, by decide, ?_, ?_⟩
  · exact increasing (Set.mem_Iic.mpr (by decide)) (Set.mem_Iic.mpr last.1) (by decide)
  · exact (exact 64 last.1).2.1.trans (by decide)
  · rw [(machine 65 words.1).2, beyond]
  · rw [(adjoint _ words.2).2 64 last.1]
    decide

end Layout

end LogLinear
