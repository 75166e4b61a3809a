import LogLinear.Proofs.Cell.Place
import Mathlib.Order.Monotone.Basic

/-!
Contract: edges, which are the least values of the cells without the bound of the word range.

Owns:
- the edge at an index, and its growth by one width from each index to the next;
- the cell of a value as the only index whose edges enclose the value;
- the start of a cell as its edge, brought into the word range;
- the end of the word range, which is an edge of every layout.

Does not own: the cells that have a counter. `LogLinear.Proofs.Cell.Range` does.
-/

namespace LogLinear.Layout

variable (layout : Layout)

/-- The least value of the cell at an index, which may lie beyond the word range. -/
def edge (index : Nat) : Nat :=
  layout.divisionAt index * 2 ^ (layout.octaveAt index + layout.unitLog)

theorem edge_of_isPlace {octave division : Nat} (place : layout.IsPlace octave division) :
    layout.edge (octave * 2 ^ layout.halfLog + division) =
      division * 2 ^ (octave + layout.unitLog) := by
  rw [edge, layout.octaveAt_of_isPlace place, layout.divisionAt_of_isPlace place]

theorem edge_cell (value : Nat) : layout.edge (layout.cell value) = layout.floor value := by
  rw [cell_eq, layout.edge_of_isPlace (layout.isPlace_value value), floor, width_eq]

/-- A cell is as wide as the octave at its index says. The last cell of an octave ends where the
next octave, with divisions of twice the width, has its middle. -/
theorem edge_succ (index : Nat) :
    layout.edge (index + 1) =
      layout.edge index + 2 ^ (layout.octaveAt index + layout.unitLog) := by
  have place := layout.isPlace_index index
  have whole := layout.octaveAt_mul_add_divisionAt index
  have positive : 0 < 2 ^ layout.halfLog := Nat.two_pow_pos _
  generalize layout.octaveAt index = octave at *
  generalize layout.divisionAt index = division at *
  subst whole
  rw [layout.edge_of_isPlace place]
  obtain ⟨below, upper⟩ := place
  by_cases last : division + 1 = 2 ^ (layout.halfLog + 1)
  · have next : octave * 2 ^ layout.halfLog + division + 1 =
        (octave + 1) * 2 ^ layout.halfLog + 2 ^ layout.halfLog := by
      rw [pow_succ] at last
      rw [Nat.succ_mul]
      omega
    rw [next, layout.edge_of_isPlace ⟨by rw [pow_succ]; omega, fun _ => le_rfl⟩]
    calc
      2 ^ layout.halfLog * 2 ^ (octave + 1 + layout.unitLog) =
          2 ^ (layout.halfLog + 1) * 2 ^ (octave + layout.unitLog) := by
        rw [← pow_add, ← pow_add]
        congr 1
        omega
      _ = division * 2 ^ (octave + layout.unitLog) + 2 ^ (octave + layout.unitLog) := by
        rw [← last, Nat.succ_mul]
  · have next : layout.IsPlace octave (division + 1) :=
      ⟨by omega, fun later => (upper later).trans (Nat.le_succ _)⟩
    rw [Nat.add_assoc, layout.edge_of_isPlace next, Nat.succ_mul]

theorem edge_lt_succ (index : Nat) : layout.edge index < layout.edge (index + 1) := by
  rw [edge_succ]
  exact Nat.lt_add_of_pos_right (Nat.two_pow_pos _)

theorem edge_strictMono : StrictMono layout.edge := strictMono_nat_of_lt_succ layout.edge_lt_succ

theorem edge_cell_succ (value : Nat) :
    layout.edge (layout.cell value + 1) = layout.floor value + layout.width value := by
  rw [edge_succ, edge_cell, octaveAt_cell, width_eq]

/-- The edges at an index and after it enclose the values of one cell. -/
theorem cell_eq_iff {value index : Nat} :
    layout.cell value = index ↔ layout.edge index ≤ value ∧ value < layout.edge (index + 1) := by
  have low : layout.edge (layout.cell value) ≤ value := by
    rw [edge_cell]
    exact layout.floor_le value
  have high : value < layout.edge (layout.cell value + 1) := by
    rw [edge_cell_succ]
    exact layout.lt_floor_add_width value
  constructor
  · rintro rfl
    exact ⟨low, high⟩
  · rintro ⟨indexLow, indexHigh⟩
    have notAbove := layout.edge_strictMono.lt_iff_lt.mp (low.trans_lt indexHigh)
    have notBelow := layout.edge_strictMono.lt_iff_lt.mp (indexLow.trans_lt high)
    omega

theorem cell_edge (index : Nat) : layout.cell (layout.edge index) = index :=
  layout.cell_eq_iff.mpr ⟨le_rfl, layout.edge_lt_succ index⟩

/-- The edges and the cells determine one another: an edge is not above a value if and only if its
index is not above the cell of the value. -/
theorem edge_le_iff {index value : Nat} : layout.edge index ≤ value ↔ index ≤ layout.cell value := by
  obtain ⟨low, high⟩ := layout.cell_eq_iff.mp (rfl : layout.cell value = layout.cell value)
  constructor
  · intro below
    exact Nat.le_of_lt_succ (layout.edge_strictMono.lt_iff_lt.mp (below.trans_lt high))
  · intro below
    exact (layout.edge_strictMono.monotone below).trans low

theorem cell_mono : Monotone layout.cell := by
  intro lower upper ordered
  exact layout.edge_le_iff.mp ((layout.edge_le_iff.mpr le_rfl).trans ordered)

/-! ### The bounds of a cell -/

theorem ceiling_add_one (value : Nat) :
    layout.ceiling value + 1 = layout.edge (layout.cell value + 1) := by
  have positive := layout.width_pos value
  rw [edge_cell_succ, ceiling]
  omega

/-- The values up to the end of a cell are those of the cells up to it. -/
theorem le_ceiling_iff {value other : Nat} :
    other ≤ layout.ceiling value ↔ layout.cell other ≤ layout.cell value := by
  rw [← Nat.lt_succ_iff, Nat.succ_eq_add_one, ceiling_add_one, ← not_le, edge_le_iff, not_le,
    Nat.lt_succ_iff]

theorem le_ceiling (value : Nat) : value ≤ layout.ceiling value := by
  have below := layout.lt_floor_add_width value
  rw [ceiling]
  omega

theorem floor_le_ceiling (value : Nat) : layout.floor value ≤ layout.ceiling value :=
  Nat.le_add_right _ _

theorem cell_eq_cell_iff {value other : Nat} :
    layout.cell other = layout.cell value ↔
      layout.floor value ≤ other ∧ other ≤ layout.ceiling value := by
  rw [cell_eq_iff, edge_cell, ← ceiling_add_one, Nat.lt_succ_iff]

theorem floor_eq_floor_iff {value other : Nat} :
    layout.floor other = layout.floor value ↔ layout.cell other = layout.cell value := by
  rw [← edge_cell, ← edge_cell]
  exact layout.edge_strictMono.injective.eq_iff

theorem cell_floor (value : Nat) : layout.cell (layout.floor value) = layout.cell value := by
  rw [← edge_cell, cell_edge]

theorem cell_ceiling (value : Nat) : layout.cell (layout.ceiling value) = layout.cell value :=
  layout.cell_eq_cell_iff.mpr ⟨layout.floor_le_ceiling value, le_rfl⟩

theorem ceiling_eq_ceiling {value other : Nat} (same : layout.cell other = layout.cell value) :
    layout.ceiling other = layout.ceiling value := by
  have next := layout.ceiling_add_one other
  rw [same, ← ceiling_add_one] at next
  omega

theorem ceiling_mono : Monotone layout.ceiling := by
  intro lower upper ordered
  apply Nat.le_of_succ_le_succ
  rw [Nat.succ_eq_add_one, Nat.succ_eq_add_one, ceiling_add_one, ceiling_add_one]
  exact layout.edge_strictMono.monotone (Nat.succ_le_succ (layout.cell_mono ordered))

/-! ### The word range -/

/-- Beyond the last shift that is made, every edge is out of the word range. -/
theorem start_eq (index : Nat) : layout.start index = Word.cap (layout.edge index) := by
  have fits := layout.fits
  unfold start
  split
  · rw [Nat.shiftLeft_eq, edge]
  · rename_i far
    symm
    apply Word.cap_of_ge
    have upper := (layout.isPlace_index index).upper (by omega)
    have positive : 0 < 2 ^ layout.halfLog := Nat.two_pow_pos _
    calc
      Word.max ≤ 1 * 2 ^ 64 := by decide
      _ ≤ layout.divisionAt index * 2 ^ (layout.octaveAt index + layout.unitLog) :=
        Nat.mul_le_mul (by omega) (Nat.pow_le_pow_right (by decide) (by omega))

theorem start_mono : Monotone layout.start := by
  intro lower upper ordered
  rw [start_eq, start_eq]
  exact min_le_min_right _ (layout.edge_strictMono.monotone ordered)

theorem start_cell {value : Nat} (word : value ≤ Word.max) :
    layout.start (layout.cell value) = layout.floor value := by
  rw [start_eq, edge_cell, Word.cap_of_le ((layout.floor_le value).trans word)]

theorem next_eq (value : Nat) : layout.next value = layout.start (layout.cell value + 1) := by
  rw [start_eq, edge_cell_succ, next]

/-- The number of cells of the word range. -/
def wordCells : Nat := (65 - layout.baseLog) * 2 ^ layout.halfLog

/-- The end of the word range is an edge, so no cell reaches across it. -/
theorem edge_wordCells : layout.edge layout.wordCells = Word.max + 1 := by
  have base := layout.baseLog_le
  have split : layout.wordCells =
      (64 - layout.baseLog) * 2 ^ layout.halfLog + 2 ^ layout.halfLog := by
    rw [wordCells, ← Nat.succ_mul]
    congr 1
    omega
  have place : layout.IsPlace (64 - layout.baseLog) (2 ^ layout.halfLog) :=
    ⟨Nat.pow_lt_pow_right (by decide) (Nat.lt_succ_self _), fun _ => le_rfl⟩
  have exponent : layout.halfLog + (64 - layout.baseLog + layout.unitLog) = 64 := by
    rw [baseLog] at base ⊢
    omega
  rw [split, layout.edge_of_isPlace place, ← pow_add, exponent]
  decide

theorem cell_lt_wordCells {value : Nat} (word : value ≤ Word.max) :
    layout.cell value < layout.wordCells := by
  by_contra beyond
  have below := layout.edge_le_iff.mpr (Nat.le_of_not_lt beyond)
  rw [edge_wordCells] at below
  omega

theorem le_cell_max_iff {index : Nat} :
    index ≤ layout.cell Word.max ↔ index < layout.wordCells := by
  rw [← edge_le_iff, ← layout.edge_strictMono.lt_iff_lt, edge_wordCells, Nat.lt_succ_iff]

theorem ceiling_le_of_word {value : Nat} (word : value ≤ Word.max) :
    layout.ceiling value ≤ Word.max := by
  have inside := layout.edge_strictMono.monotone (layout.cell_lt_wordCells word)
  rw [edge_wordCells, Nat.succ_eq_add_one, ← ceiling_add_one] at inside
  omega

theorem floor_le_of_word {value : Nat} (word : value ≤ Word.max) : layout.floor value ≤ Word.max :=
  (layout.floor_le value).trans word

theorem edge_le_of_le_cell {index : Nat} (inside : index ≤ layout.cell Word.max) :
    layout.edge index ≤ Word.max :=
  layout.edge_le_iff.mpr inside

/-- Within the word range, starts are edges. -/
theorem start_of_le_cell {index : Nat} (inside : index ≤ layout.cell Word.max) :
    layout.start index = layout.edge index := by
  rw [start_eq, Word.cap_of_le (layout.edge_le_of_le_cell inside)]

theorem edge_zero : layout.edge 0 = 0 := by
  rw [edge, divisionAt, Nat.zero_sub, Nat.zero_mul]

theorem edge_one : layout.edge 1 = 2 ^ layout.unitLog := by
  have octave : layout.octaveAt 0 = 0 := by rw [octaveAt_eq, Nat.zero_div, Nat.zero_sub]
  rw [edge_succ, edge_zero, octave, Nat.zero_add, Nat.zero_add]

theorem start_zero : layout.start 0 = 0 := by
  rw [start_eq, edge_zero, Word.cap_of_le (Nat.zero_le _)]

theorem start_one : layout.start 1 = 2 ^ layout.unitLog := by
  have inside : 2 ^ layout.unitLog ≤ Word.max :=
    (Nat.pow_le_pow_right Nat.two_pos layout.unitLog_le).trans (by decide)
  rw [start_eq, edge_one, Word.cap_of_le inside]

theorem cell_start {index : Nat} (inside : index ≤ layout.cell Word.max) :
    layout.cell (layout.start index) = index := by
  rw [layout.start_of_le_cell inside, cell_edge]

end LogLinear.Layout
