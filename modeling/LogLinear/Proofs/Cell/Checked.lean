import LogLinear.Proofs.Cell.Range

/-!
Contract: the functions on cells as a machine computes them, with words of fixed size.

Owns:
- sums, differences and shifts that have no result if a machine would refuse or garble them;
- the functions on cells in terms of these operations;
- the agreement of both for every layout, every word and every index: nothing leaves its range.

The results of one word may be larger than the trackable range, and indices may be past the last
counter.

Does not own: how a layout comes by its sizes.
-/

namespace LogLinear

/-! ### Machine words -/

namespace Machine

/-- The sum of two words, if it is a word of as many bits. -/
def add? (bits left right : Nat) : Option Nat :=
  if left + right < 2 ^ bits then some (left + right) else none

/-- The difference of two words, if it is not below zero. -/
def sub? (left right : Nat) : Option Nat :=
  if right ≤ left then some (left - right) else none

/-- A word shifted up, if that is by fewer bits than it has. The bits that leave the word are lost. -/
def shiftLeft? (bits word amount : Nat) : Option Nat :=
  if amount < bits then some ((word <<< amount) % 2 ^ bits) else none

/-- A word shifted down, if that is by fewer bits than it has. -/
def shiftRight? (bits word amount : Nat) : Option Nat :=
  if amount < bits then some (word >>> amount) else none

/-- The number of bits above the highest one that is set, out of sixty-four. -/
def leadingZeros (word : Nat) : Nat := 64 - if word = 0 then 0 else word.log2 + 1

theorem add?_eq_some {bits left right : Nat} (small : left + right < 2 ^ bits) :
    add? bits left right = some (left + right) := if_pos small

theorem sub?_eq_some {left right : Nat} (ordered : right ≤ left) :
    sub? left right = some (left - right) := if_pos ordered

theorem shiftLeft?_eq_some {bits word amount : Nat} (few : amount < bits)
    (small : word <<< amount < 2 ^ bits) :
    shiftLeft? bits word amount = some (word <<< amount) := by
  rw [shiftLeft?, if_pos few, Nat.mod_eq_of_lt small]

theorem shiftRight?_eq_some {bits word amount : Nat} (few : amount < bits) :
    shiftRight? bits word amount = some (word >>> amount) := if_pos few

theorem leadingZeros_of_pos {word : Nat} (positive : 0 < word) :
    leadingZeros word = 63 - word.log2 := by
  rw [leadingZeros, if_neg positive.ne']
  omega

end Machine

namespace Layout.Checked

open Machine

variable (layout : Layout)

/-- The leading zeros of the largest value of octave 0. -/
def baseZeros : Nat := 64 - layout.unitLog - layout.halfLog - 1

def octave (value : Nat) : Option Nat :=
  sub? (baseZeros layout) (leadingZeros (value ||| layout.baseMask))

def division (value octave : Nat) : Option Nat := do
  shiftRight? 64 value (← add? 32 octave layout.unitLog)

def cell (value : Nat) : Option Nat := do
  let octave ← octave layout value
  let division ← division layout value octave
  add? 64 (← shiftLeft? 64 octave layout.halfLog) division

def floor (value : Nat) : Option Nat := do
  let octave ← octave layout value
  let division ← division layout value octave
  shiftLeft? 64 division (← add? 32 octave layout.unitLog)

/-- A division that is not one of the octave would be twice as wide. -/
def width (value : Nat) : Option Nat := do
  let octave ← octave layout value
  let division ← division layout value octave
  let magnitude ← if layout.divisionCount ≤ division then add? 32 octave 1 else some octave
  shiftLeft? 64 1 (← add? 32 layout.unitLog magnitude)

def ceiling (value : Nat) : Option Nat := do
  let floor ← floor layout value
  add? 64 floor (← sub? (← width layout value) 1)

def middle (value : Nat) : Option Nat := do
  let floor ← floor layout value
  return Word.cap (floor + (← shiftRight? 64 (← width layout value) 1))

def next (value : Nat) : Option Nat := do
  let floor ← floor layout value
  return Word.cap (floor + (← width layout value))

/-- The octave and the division at an index. -/
def place (index : Nat) : Option (Nat × Nat) := do
  let half := 1 <<< layout.halfLog
  let mask ← sub? half 1
  match ← shiftRight? 64 index layout.halfLog with
  | 0 => return (0, index &&& mask)
  | octave + 1 => return (octave, ← add? 64 (index &&& mask) half)

/-- The shift is refused beforehand if it would be too far, and is made in twice the bits. -/
def start (index : Nat) : Option Nat := do
  let (octave, division) ← place layout index
  match (add? 32 octave layout.unitLog).filter (· < 64) with
  | none => return Word.max
  | some shift => return Word.cap (← shiftLeft? 128 division shift)

end Layout.Checked

/-! ### Values -/

namespace Layout

variable {layout : Layout}

theorem word_lt {value : Nat} (word : value ≤ Word.max) : value < 2 ^ 64 := Nat.lt_succ_of_le word

theorem division_lt (value : Nat) : layout.division value < layout.divisionCount := by
  rw [divisionCount, Nat.shiftLeft_eq, one_mul]
  exact (layout.isPlace_value value).below

section Value

variable {value : Nat} (word : value ≤ Word.max)
include word

theorem checked_octave : Checked.octave layout value = some (layout.octave value) := by
  have base := layout.baseLog_le
  have maskLow := layout.le_baseMask
  have maskHigh : layout.baseMask < 2 ^ 64 :=
    layout.baseMask_lt.trans_le (Nat.pow_le_pow_right Nat.two_pos (by omega))
  have aboveMask : layout.baseMask ≤ value ||| layout.baseMask := Nat.right_le_or
  have positive : 0 < value ||| layout.baseMask :=
    (Nat.two_pow_pos _).trans_le (maskLow.trans aboveMask)
  have low : layout.baseLog ≤ (value ||| layout.baseMask).log2 :=
    (Nat.le_log2 positive.ne').mpr (maskLow.trans aboveMask)
  have high : (value ||| layout.baseMask).log2 < 64 :=
    (Nat.log2_lt positive.ne').mpr (Nat.or_lt_two_pow (word_lt word) maskHigh)
  have zeros : Checked.baseZeros layout = 63 - layout.baseLog := by
    rw [Checked.baseZeros, baseLog]
    omega
  rw [Checked.octave, Machine.leadingZeros_of_pos positive, zeros,
    Machine.sub?_eq_some (by omega), Layout.octave]
  congr 1
  omega

theorem shift_lt : layout.octave value + layout.unitLog < 64 := by
  have last := layout.octave_le_of_word word
  rw [baseLog] at last
  omega

theorem checked_shift :
    Machine.add? 32 (layout.octave value) layout.unitLog =
      some (layout.octave value + layout.unitLog) :=
  Machine.add?_eq_some ((shift_lt word).trans (by decide))

theorem checked_division :
    Checked.division layout value (layout.octave value) = some (layout.division value) := by
  simp only [Checked.division, checked_shift word, Option.bind_eq_bind, Option.bind_some,
    Machine.shiftRight?_eq_some (shift_lt word), Layout.division]

/-- An index is at most as large as the values there, and so is the part of it that the octave
makes. -/
theorem cell_le_max : layout.cell value ≤ Word.max := by
  have below : layout.cell value ≤ layout.edge (layout.cell value) :=
    layout.edge_strictMono.le_apply
  rw [edge_cell] at below
  exact below.trans (layout.floor_le_of_word word)

theorem checked_cell : Checked.cell layout value = some (layout.cell value) := by
  have half : layout.halfLog < 64 := by
    have fits := layout.fits
    omega
  have index := word_lt (@cell_le_max layout value word)
  rw [Layout.cell] at index ⊢
  have octave : layout.octave value <<< layout.halfLog < 2 ^ 64 :=
    (Nat.le_add_right _ _).trans_lt index
  simp only [Checked.cell, checked_octave word, checked_division word, Option.bind_eq_bind,
    Option.bind_some, Machine.shiftLeft?_eq_some half octave, Machine.add?_eq_some index]

theorem checked_floor : Checked.floor layout value = some (layout.floor value) := by
  have shifted : layout.division value <<< (layout.octave value + layout.unitLog) =
      layout.floor value := by
    rw [Nat.shiftLeft_eq, Layout.floor, width_eq]
  have small : layout.division value <<< (layout.octave value + layout.unitLog) < 2 ^ 64 :=
    shifted ▸ word_lt (layout.floor_le_of_word word)
  simp only [Checked.floor, checked_octave word, checked_division word, checked_shift word,
    Option.bind_eq_bind, Option.bind_some, Machine.shiftLeft?_eq_some (shift_lt word) small, shifted]

/-- No division lies outside its octave, so the width is never doubled. -/
theorem checked_width : Checked.width layout value = some (layout.width value) := by
  have inside : ¬ layout.divisionCount ≤ layout.division value :=
    Nat.not_le_of_lt (layout.division_lt value)
  have shift := @shift_lt layout value word
  rw [Nat.add_comm] at shift
  have small : 1 <<< (layout.unitLog + layout.octave value) < 2 ^ 64 := by
    rw [Nat.shiftLeft_eq, one_mul]
    exact Nat.pow_lt_pow_right Nat.one_lt_two shift
  simp only [Checked.width, checked_octave word, checked_division word, if_neg inside,
    Option.bind_eq_bind, Option.bind_some,
    Machine.add?_eq_some (shift.trans (show 64 < 2 ^ 32 by decide)),
    Machine.shiftLeft?_eq_some shift small, Layout.width]

theorem checked_ceiling : Checked.ceiling layout value = some (layout.ceiling value) := by
  have small := word_lt (layout.ceiling_le_of_word word)
  rw [Layout.ceiling] at small ⊢
  simp only [Checked.ceiling, checked_floor word, checked_width word, Option.bind_eq_bind,
    Option.bind_some, Machine.sub?_eq_some (layout.width_pos value), Machine.add?_eq_some small]

theorem checked_middle : Checked.middle layout value = some (layout.middle value) := by
  simp only [Checked.middle, checked_floor word, checked_width word, Option.bind_eq_bind,
    Option.bind_some, Option.pure_def, Machine.shiftRight?_eq_some (show 1 < 64 by decide),
    Layout.middle]

theorem checked_next : Checked.next layout value = some (layout.next value) := by
  simp only [Checked.next, checked_floor word, checked_width word, Option.bind_eq_bind,
    Option.bind_some, Option.pure_def, Layout.next]

end Value

/-! ### Indices -/

section Index

variable {index : Nat} (word : index ≤ Word.max)
include word

theorem checked_place :
    Checked.place layout index = some (layout.octaveAt index, layout.divisionAt index) := by
  have fits := layout.fits
  have positive : 0 < 2 ^ layout.halfLog := Nat.two_pow_pos _
  have whole := layout.octaveAt_mul_add_divisionAt index
  have split := Nat.div_add_mod' index (2 ^ layout.halfLog)
  rw [octaveAt_eq] at whole
  rw [octaveAt_eq]
  simp only [Checked.place, Option.bind_eq_bind, Nat.shiftLeft_eq, one_mul,
    Machine.sub?_eq_some (show 1 ≤ 2 ^ layout.halfLog from positive), Option.bind_some,
    Machine.shiftRight?_eq_some (show layout.halfLog < 64 by omega), Nat.shiftRight_eq_div_pow,
    Nat.and_two_pow_sub_one_eq_mod, Option.pure_def]
  cases quotient : index / 2 ^ layout.halfLog with
  | zero =>
      rw [quotient] at whole split
      have division : index % 2 ^ layout.halfLog = layout.divisionAt index := by omega
      simp only [division, Nat.zero_sub]
  | succ octave =>
      rw [quotient, Nat.add_sub_cancel] at whole
      rw [quotient, Nat.succ_mul] at split
      have division : index % 2 ^ layout.halfLog + 2 ^ layout.halfLog = layout.divisionAt index := by
        omega
      have small : index % 2 ^ layout.halfLog + 2 ^ layout.halfLog < 2 ^ 64 :=
        lt_of_le_of_lt (by omega) (word_lt word)
      simp only [Machine.add?_eq_some small, Option.bind_some, division, Nat.add_sub_cancel]

/-- With twice the bits, a shift that is made loses nothing. -/
theorem checked_start : Checked.start layout index = some (layout.start index) := by
  have fits := layout.fits
  have below := (layout.isPlace_index index).below
  simp only [Checked.start, checked_place word, Option.bind_eq_bind, Option.bind_some,
    Option.pure_def, Layout.start]
  by_cases near : layout.octaveAt index + layout.unitLog < 64
  · have small : layout.divisionAt index <<< (layout.octaveAt index + layout.unitLog) < 2 ^ 128 := by
      rw [Nat.shiftLeft_eq]
      calc layout.divisionAt index * 2 ^ (layout.octaveAt index + layout.unitLog)
          < 2 ^ (layout.halfLog + 1) * 2 ^ (layout.octaveAt index + layout.unitLog) :=
            Nat.mul_lt_mul_of_pos_right below (Nat.two_pow_pos _)
        _ = 2 ^ (layout.halfLog + 1 + (layout.octaveAt index + layout.unitLog)) :=
            (pow_add _ _ _).symm
        _ ≤ 2 ^ 128 := Nat.pow_le_pow_right Nat.two_pos (by omega)
    simp only [Machine.add?_eq_some (near.trans (show 64 < 2 ^ 32 by decide)), Option.filter_some,
      near, decide_true, if_true, Option.bind_some,
      Machine.shiftLeft?_eq_some (near.trans (show 64 < 128 by decide)) small]
  · have refused : (Machine.add? 32 (layout.octaveAt index) layout.unitLog).filter (· < 64) =
        none := by
      unfold Machine.add?
      split <;> simp_all
    simp only [refused, near, if_false]

end Index

/-- On words no function on cells leaves the range of what it computes with. None of its sums
overflows, no difference is below zero and no shift is as far as a word is long, beyond the trackable
range and past the last counter too. The divisions are those of an octave, indices grow with the
values, and every value that can be recorded has a counter, of which there is none whose least value
is capped. -/
theorem checked_of_words (layout : Layout) {value index : Nat} (word : value ≤ Word.max)
    (indexWord : index ≤ Word.max) :
    (Checked.cell layout value = some (layout.cell value) ∧
      Checked.floor layout value = some (layout.floor value) ∧
      Checked.width layout value = some (layout.width value) ∧
      Checked.ceiling layout value = some (layout.ceiling value) ∧
      Checked.middle layout value = some (layout.middle value) ∧
      Checked.next layout value = some (layout.next value) ∧
      Checked.start layout index = some (layout.start index)) ∧
    layout.division value < layout.divisionCount ∧
    Monotone layout.cell ∧
    (value ≤ layout.highest → layout.cell value < layout.cellCount) ∧
    (index < layout.cellCount →
      layout.start index =
        layout.divisionAt index * 2 ^ (layout.octaveAt index + layout.unitLog)) := by
  refine ⟨⟨checked_cell word, checked_floor word, checked_width word, checked_ceiling word,
      checked_middle word, checked_next word, checked_start indexWord⟩,
    layout.division_lt value, layout.cell_mono, layout.cell_lt_cellCount, ?_⟩
  intro counted
  exact layout.start_of_le_cell (layout.le_cell_max counted)

/-- The largest word in a layout of few octaves, and the last index of all. -/
theorem checked_dyadic_of_words :
    (Word.max ≤ Word.max ∧ Word.max ≤ Word.max) ∧
    Checked.cell .dyadic Word.max = some 64 ∧ Checked.width .dyadic Word.max = some (2 ^ 63) ∧
      Checked.ceiling .dyadic Word.max = some Word.max ∧
      Checked.start .dyadic Word.max = some Word.max := by
  obtain ⟨⟨cell, -, width, ceiling, -, -, start⟩, -⟩ :=
    checked_of_words .dyadic (le_refl Word.max) (le_refl Word.max)
  exact ⟨⟨le_rfl, le_rfl⟩, cell.trans (by decide), width.trans (by decide),
    ceiling.trans (by decide), start.trans (by decide)⟩

end Layout

end LogLinear
