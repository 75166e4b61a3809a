import LogLinear.Proofs.Binary64.Whole
import LogLinear.Proofs.Histogram.Recorded
import LogLinear.Proofs.Rank.Seek
import Mathlib.Data.List.Sort

/-!
Contract: percentiles as values of the sorted list of what was recorded.

Owns:
- the value of a rank among some values;
- its cell, which is where the search for the rank stops;
- the value at a percentile, which is the one of the asked-for rank up to its cell, whatever rank the
  machine arithmetic asks for.

Does not own: which rank that is. `LogLinear.Proofs.Rank.Extremes` has it for the greatest
percentile.
-/

namespace LogLinear.Histogram

open Binary64

/-! ### The value of a rank -/

/-- The value of a rank, counted from 1, when the values are put in order. Ranks past the last value
give the last one. -/
def valueOfRank (values : List Nat) (rank : Nat) : Nat :=
  (values.insertionSort (· ≤ ·)).getD (min rank values.length - 1) 0

section Sorted

variable {values : List Nat} {rank : Nat}

/-- In an ordered list the numbers below a bound come first. -/
theorem getElem_lt_iff_lt_countP {numbers : List Nat} (ordered : numbers.Pairwise (· ≤ ·))
    {bound place : Nat} (inside : place < numbers.length) :
    numbers[place] < bound ↔ place < numbers.countP (· < bound) := by
  induction numbers generalizing place with
  | nil => exact absurd inside (Nat.not_lt_zero _)
  | cons first rest inductionHypothesis =>
      obtain ⟨least, restOrdered⟩ := List.pairwise_cons.mp ordered
      by_cases below : first < bound
      · rw [List.countP_cons_of_pos (by simpa using below)]
        cases place with
        | zero => exact iff_of_true below (Nat.succ_pos _)
        | succ place =>
            rw [List.getElem_cons_succ, Nat.add_lt_add_iff_right]
            exact inductionHypothesis restOrdered _
      · have noneBelow : ∀ number ∈ first :: rest, ¬ number < bound := by
          intro number member
          rcases List.mem_cons.mp member with rfl | later
          · exact below
          · exact fun less => below ((least number later).trans_lt less)
        have none : (first :: rest).countP (· < bound) = 0 :=
          List.countP_eq_zero.mpr fun number member => by simpa using noneBelow number member
        rw [none]
        exact iff_of_false (noneBelow _ (List.getElem_mem inside)) (Nat.not_lt_zero _)

theorem place_lt_length (recorded : 0 < values.length) (rank : Nat) :
    min rank values.length - 1 < (values.insertionSort (· ≤ ·)).length := by
  rw [List.length_insertionSort]
  omega

theorem valueOfRank_mem (recorded : 0 < values.length) (rank : Nat) :
    valueOfRank values rank ∈ values := by
  have inside := place_lt_length recorded rank
  rw [valueOfRank, List.getD_eq_getElem _ _ inside]
  exact (List.mem_insertionSort _).mp (List.getElem_mem inside)

theorem valueOfRank_mono (recorded : 0 < values.length) : Monotone (valueOfRank values) := by
  intro low high ordered
  rw [valueOfRank, valueOfRank, List.getD_eq_getElem _ _ (place_lt_length recorded low),
    List.getD_eq_getElem _ _ (place_lt_length recorded high)]
  apply List.sortedLE_insertionSort.getElem_le_getElem_of_le
  omega

theorem valueOfRank_of_length_le (beyond : values.length ≤ rank) :
    valueOfRank values rank = valueOfRank values values.length := by
  rw [valueOfRank, valueOfRank, min_eq_right beyond, min_self]

end Sorted

/-! ### The cell of a rank -/

namespace Counts

variable {histogram : Histogram} {values : List Nat} (counts : histogram.Counts values) {rank : Nat}
include counts

/-- The values before a cell are as many as its counters say, and come first in order. -/
theorem cell_valueOfRank_lt_iff (positive : 1 ≤ rank) (inside : rank ≤ histogram.total)
    {index : Nat} :
    histogram.layout.cell (valueOfRank values rank) < index ↔
      rank ≤ histogram.countBefore index := by
  have length := counts.total_eq_length
  have place := place_lt_length (show 0 < values.length by omega) rank
  have cells := (List.perm_insertionSort (· ≤ ·) values).map histogram.layout.cell
  have ordered : ((values.insertionSort (· ≤ ·)).map histogram.layout.cell).Pairwise (· ≤ ·) :=
    (List.pairwise_insertionSort (· ≤ ·) values).map _
      fun _ _ lessEq => histogram.layout.cell_mono lessEq
  have first := @getElem_lt_iff_lt_countP _ ordered index _ (by rwa [List.length_map])
  rw [List.getElem_map, cells.countP_eq, ← counts.countBefore_eq] at first
  rw [valueOfRank, List.getD_eq_getElem _ _ place, first]
  omega

theorem indexOfRank?_eq (positive : 1 ≤ rank) (inside : rank ≤ histogram.total) :
    histogram.indexOfRank? rank = some (histogram.layout.cell (valueOfRank values rank)) := by
  rw [indexOfRank?_eq_some_iff positive, ← not_le, ← counts.cell_valueOfRank_lt_iff positive inside,
    ← counts.cell_valueOfRank_lt_iff positive inside]
  exact ⟨lt_irrefl _, Nat.lt_succ_self _⟩

theorem valueOfRank_le_max (recorded : 0 < histogram.total) (rank : Nat) :
    valueOfRank values rank ≤ Word.max :=
  (counts.trackable _ (valueOfRank_mem (counts.total_eq_length ▸ recorded) rank)).trans
    histogram.layout.highest_le

theorem reported_of_le (positive : 1 ≤ rank) (inside : rank ≤ histogram.total) (least : Bool) :
    histogram.reported least rank =
      if least then histogram.layout.floor (valueOfRank values rank)
      else histogram.layout.ceiling (valueOfRank values rank) := by
  have isStart := histogram.layout.start_cell
    (counts.valueOfRank_le_max (positive.trans inside) rank)
  rw [reported_of_eq_some (counts.indexOfRank?_eq positive inside), start, isStart,
    histogram.layout.floor_eq_floor_iff.mpr (histogram.layout.cell_floor _),
    histogram.layout.ceiling_eq_ceiling (histogram.layout.cell_floor _)]

/-- Whatever rank is asked for, the value of that rank is reported as the greatest one of its cell. -/
theorem reported_greatest (positive : 1 ≤ rank) (recorded : 0 < histogram.total) :
    histogram.reported false rank = histogram.layout.ceiling (valueOfRank values rank) := by
  rcases le_or_gt rank histogram.total with inside | beyond
  · exact counts.reported_of_le positive inside false
  · have last : valueOfRank values histogram.total = valueOfRank values rank := by
      rw [counts.total_eq_length] at beyond ⊢
      exact (valueOfRank_of_length_le beyond.le).symm
    have short := belowHighest_lt counts.sound recorded
    rw [(reported_eq_maximum_iff counts.sound recorded positive).mpr (short.trans beyond),
      ← (reported_eq_maximum_iff counts.sound recorded recorded).mpr short, ← last]
    exact counts.reported_of_le recorded le_rfl false

theorem reported_mono (recorded : 0 < histogram.total) {low high : Nat} (positive : 1 ≤ low)
    (ordered : low ≤ high) : histogram.reported false low ≤ histogram.reported false high := by
  rw [counts.reported_greatest positive recorded,
    counts.reported_greatest (positive.trans ordered) recorded]
  exact histogram.layout.ceiling_mono
    (valueOfRank_mono (counts.total_eq_length ▸ recorded) ordered)

end Counts

/-! ### Percentiles -/

/-- The percentile zero, of either sign, asks for the first rank. -/
theorem rank_of_zero {level : Float} (isZero : (level == 0.0) = true) {total : Nat}
    (word : total ≤ Word.max) : rank level total = 1 := by
  have notPositive : ¬ 0.0 < level := by
    rw [denotes_zero.lt_iff (denotes_zero_of_beq isZero)]
    exact lt_irrefl 0
  have part : Denotes (0.0 / 100.0) 0 := by
    have quotient := denotes_zero.div denotes_hundred (by norm_num)
      (show (0 : ℝ) / 100 ≤ 2 ^ 0 by norm_num) (by decide)
    rwa [zero_div, nearest_zero] at quotient
  have product : Denotes (0.0 / 100.0 * Word.toFloat total) 0 := by
    have product := part.mul (denotes_toFloat word)
      (show 0 * nearest total ≤ 2 ^ 0 by norm_num) (by decide)
    rwa [zero_mul, nearest_zero] at product
  rw [rank, if_neg notPositive, roundUp_eq product, Nat.ceil_zero]
  rfl

namespace Counts

variable {histogram : Histogram} {values : List Nat} (counts : histogram.Counts values)
  (recorded : 0 < histogram.total) {level : Float} (valid : 0.0 ≤ level ∧ level ≤ 100.0)
include counts recorded

theorem count_valueOfRank_ne_zero (rank : Nat) :
    histogram.count (histogram.layout.cell (valueOfRank values rank)) ≠ 0 :=
  counts.count_cell_ne_zero (valueOfRank_mem (counts.total_eq_length ▸ recorded) rank)

include valid

theorem percentile_of_zero (isZero : (level == 0.0) = true) :
    histogram.percentile level = .ok (histogram.layout.floor (valueOfRank values 1)) := by
  rw [percentile_eq valid recorded, isZero, rank_of_zero isZero counts.sound.total_le,
    counts.reported_of_le le_rfl recorded, if_pos rfl]

theorem percentile_of_ne_zero (notZero : (level == 0.0) = false) :
    histogram.percentile level =
      .ok (histogram.layout.ceiling (valueOfRank values (rank level histogram.total))) := by
  rw [percentile_eq valid recorded, notZero, counts.reported_greatest (one_le_rank _ _) recorded]

end Counts

/-- A percentile is the recorded value of the rank that it asks for, up to its cell. The percentile
zero gives the least value of the cell of the smallest recorded value, and any other one the greatest
value of the cell of its rank, for which ranks past the end count as the last one. Nothing depends on
how the rank comes about: a larger rank never gives a smaller value, the cell of the result always
holds a count, and the running count of the search is a word all along. -/
theorem percentile_eq_nearest_rank (layout : Layout) (excess : Excess) (ratio : Float)
    (records : List (Nat × Nat)) :
    let histogram := (fresh layout excess ratio).keepEach records
    let values := (fresh layout excess ratio).addedEach records
    0 < histogram.total →
    (∀ level : Float, 0.0 ≤ level ∧ level ≤ 100.0 →
      histogram.percentile level =
        .ok (histogram.reported (level == 0.0) (rank level histogram.total)) ∧
      (level == 0.0 →
        histogram.percentile level = .ok (layout.floor (valueOfRank values 1))) ∧
      (level != 0.0 →
        1 ≤ rank level histogram.total ∧
        histogram.percentile level =
          .ok (layout.ceiling (valueOfRank values (rank level histogram.total)))) ∧
      ∃ result, histogram.percentile level = .ok result ∧
        histogram.count (layout.cell result) ≠ 0) ∧
    (∀ low high, 1 ≤ low → low ≤ high →
      histogram.reported false low = layout.ceiling (valueOfRank values low) ∧
      histogram.reported false low ≤ histogram.reported false high) ∧
    histogram.total = values.length ∧ ∀ index, histogram.countBefore index ≤ Word.max := by
  intro histogram values recorded
  have counts : histogram.Counts values :=
    (Counts.fresh layout excess ratio).keepEach records
  have isLayout : histogram.layout = layout := layout_keepEach _ records
  refine ⟨?_, ?_, counts.total_eq_length, ?_⟩
  · intro level valid
    have isHeld := counts.count_valueOfRank_ne_zero recorded
    have ofZero := counts.percentile_of_zero recorded valid
    have ofNotZero := counts.percentile_of_ne_zero recorded valid
    rw [isLayout] at isHeld ofZero ofNotZero
    refine ⟨percentile_eq valid recorded, ofZero, ?_, ?_⟩
    · intro notZero
      exact ⟨one_le_rank level histogram.total, ofNotZero (by simpa [bne] using notZero)⟩
    · cases isZero : level == 0.0 with
      | true =>
          refine ⟨_, ofZero isZero, ?_⟩
          rw [layout.cell_floor]
          exact isHeld 1
      | false =>
          refine ⟨_, ofNotZero isZero, ?_⟩
          rw [layout.cell_ceiling]
          exact isHeld _
  · intro low high positive ordered
    refine ⟨?_, counts.reported_mono recorded positive ordered⟩
    rw [counts.reported_greatest positive recorded, isLayout]
  · intro index
    exact (histogram.countBefore_le index).trans (counts.sound.total_eq ▸ counts.sound.total_le)

theorem percentile_of_sampleRecords :
    let histogram := (fresh .dyadic .clamp 1.0).keepEach sampleRecords
    (0 < histogram.total ∧ (0.0 ≤ (-0.0 : Float) ∧ (-0.0 : Float) ≤ 100.0) ∧
      (0.0 ≤ (50.0 : Float) ∧ (50.0 : Float) ≤ 100.0)) ∧
    (fresh .dyadic .clamp 1.0).addedEach sampleRecords = [8, 8, 1] ∧
    histogram.percentile (-0.0) = .ok 1 ∧ histogram.percentile 50.0 = .ok 15 := by
  intro histogram
  have values : (fresh .dyadic .clamp 1.0).addedEach sampleRecords = [8, 8, 1] := by
    decide +kernel
  have recorded : 0 < histogram.total := by decide +kernel
  have zeroValid : 0.0 ≤ (-0.0 : Float) ∧ (-0.0 : Float) ≤ 100.0 := by decide +kernel
  have halfValid : 0.0 ≤ (50.0 : Float) ∧ (50.0 : Float) ≤ 100.0 := by decide +kernel
  have isRank : rank 50.0 histogram.total = 2 := by decide +kernel
  obtain ⟨percentiles, -⟩ := percentile_eq_nearest_rank .dyadic .clamp 1.0 sampleRecords recorded
  have least := (percentiles _ zeroValid).2.1 (by decide +kernel)
  have middle := ((percentiles _ halfValid).2.2.1 (by decide +kernel)).2
  rw [values] at least middle
  rw [isRank] at middle
  exact ⟨⟨recorded, zeroValid, halfValid⟩, values, least, middle⟩

end LogLinear.Histogram
