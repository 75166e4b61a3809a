import LogLinear.Proofs.Cell.Edge
import Mathlib.Order.WellFounded

/-!
Contract: the cells that have a counter.

Owns:
- the counters reach up to the highest value at least, so every value that can be recorded has one;
- the counters reach up to the end of the word range at most, so every one of them has a start.

Does not own: what is counted.
-/

namespace LogLinear.Layout

variable (layout : Layout)

theorem cellCount_eq :
    layout.cellCount = (layout.octaveCount + 1) * 2 ^ layout.halfLog := by
  rw [cellCount, Nat.shiftLeft_eq]

theorem octaveCount_eq_max :
    layout.octaveCount = max 1 (layout.highest.log2 + 1 - layout.baseLog) := by
  rw [layout.octaveCount_eq, Requirement.octaveCount, baseLog, layout.unitLog_eq,
    layout.halfLog_eq, highest]

theorem highest_le : layout.highest ≤ Word.max := layout.requirement.highest_le

theorem cell_lt_of_octave_lt {value bound : Nat} (before : layout.octave value < bound) :
    layout.cell value < (bound + 1) * 2 ^ layout.halfLog := by
  have below := (layout.isPlace_value value).below
  rw [pow_succ] at below
  calc
    layout.cell value < layout.octave value * 2 ^ layout.halfLog + 2 ^ layout.halfLog * 2 := by
      rw [cell_eq]
      omega
    _ = (layout.octave value + 2) * 2 ^ layout.halfLog := by ring
    _ ≤ (bound + 1) * 2 ^ layout.halfLog := Nat.mul_le_mul_right _ (by omega)

/-- Every value that can be recorded has its counter. -/
theorem cell_lt_cellCount {value : Nat} (trackable : value ≤ layout.highest) :
    layout.cell value < layout.cellCount := by
  have octaves := layout.octaveCount_eq_max
  have ordered := layout.octave_mono trackable
  rw [octave_eq _ layout.highest] at ordered
  rw [cellCount_eq]
  exact layout.cell_lt_of_octave_lt (by omega)

theorem octaveCount_le : layout.octaveCount + layout.baseLog ≤ 64 := by
  have octaves := layout.octaveCount_eq_max
  have base := layout.baseLog_le
  have last := layout.octave_le_of_word layout.highest_le
  rw [octave_eq] at last
  omega

theorem cellCount_le_wordCells : layout.cellCount ≤ layout.wordCells := by
  have octaves := layout.octaveCount_le
  rw [cellCount_eq, wordCells]
  exact Nat.mul_le_mul_right _ (by omega)

/-- Every counter belongs to a cell within the word range. -/
theorem le_cell_max {index : Nat} (counted : index < layout.cellCount) :
    index ≤ layout.cell Word.max :=
  layout.le_cell_max_iff.mpr (counted.trans_le layout.cellCount_le_wordCells)

theorem le_max_of_counted {index : Nat} (counted : index < layout.cellCount) : index ≤ Word.max :=
  layout.edge_strictMono.le_apply.trans (layout.edge_le_of_le_cell (layout.le_cell_max counted))

/-- A layout has fewer cells than there are words, so an index of one of them has a successor. -/
theorem lt_max_of_counted {index : Nat} (counted : index < layout.cellCount) : index < Word.max := by
  have base := layout.baseLog_le
  have half : layout.halfLog ≤ layout.baseLog := Nat.le_add_left _ _
  have few : 65 - layout.baseLog < 2 ^ (64 - layout.halfLog) := by
    have small : 62 - layout.halfLog < 2 ^ (62 - layout.halfLog) := Nat.lt_two_pow_self
    rw [show 64 - layout.halfLog = 62 - layout.halfLog + 2 by omega, pow_add]
    omega
  have cells := layout.cellCount_le_wordCells
  have words : layout.wordCells < Word.max + 1 := by
    calc layout.wordCells < 2 ^ (64 - layout.halfLog) * 2 ^ layout.halfLog :=
          Nat.mul_lt_mul_of_pos_right few (Nat.two_pow_pos _)
      _ = 2 ^ 64 := by rw [← pow_add, Nat.sub_add_cancel (by omega)]
  omega

theorem cell_start_of_counted {index : Nat} (counted : index < layout.cellCount) :
    layout.cell (layout.start index) = index :=
  layout.cell_start (layout.le_cell_max counted)

/-- Whole octaves up to 8, of which each but the first has one cell: the cells are 0, 1, 2 to 3,
4 to 7 and 8 to 15. -/
def dyadic : Layout where
  requirement := ⟨1, 8, 0, Word.one_le_max, by decide⟩
  unitLog := 0
  halfLog := 0
  baseMask := 1
  octaveCount := 4
  unitLog_eq := by decide
  halfLog_eq := by decide
  baseMask_eq := by decide
  octaveCount_eq := by decide
  lowest_pos := by decide
  figures_le := by decide
  twice_lowest_le := by decide
  fits := by decide

/-- Values up to 127, told apart to one figure: those below 32 have cells of their own, and the last
cells are four wide. -/
def decimal : Layout where
  requirement := ⟨1, 127, 1, Word.one_le_max, by decide⟩
  unitLog := 0
  halfLog := 4
  baseMask := 31
  octaveCount := 3
  unitLog_eq := by decide
  halfLog_eq := by decide
  baseMask_eq := by decide
  octaveCount_eq := by decide
  lowest_pos := by decide
  figures_le := by decide
  twice_lowest_le := by decide
  fits := by decide

/-- Units of four, told apart by whole octaves up to 127: the cells are 0 to 3, 4 to 7, 8 to 15 and so
on. -/
def fours : Layout where
  requirement := ⟨4, 127, 0, by decide, by decide⟩
  unitLog := 2
  halfLog := 0
  baseMask := 4
  octaveCount := 5
  unitLog_eq := by decide
  halfLog_eq := by decide
  baseMask_eq := by decide
  octaveCount_eq := by decide
  lowest_pos := by decide
  figures_le := by decide
  twice_lowest_le := by decide
  fits := by decide

theorem start_le_max (index : Nat) : layout.start index ≤ Word.max := by
  rw [start_eq]
  exact Word.cap_le _

end LogLinear.Layout
