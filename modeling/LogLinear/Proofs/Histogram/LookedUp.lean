import LogLinear.Histogram.Percentile
import LogLinear.Proofs.Histogram.Recorded

/-!
Contract: what the queries of a value say about the recorded values, one by one.

Owns:
- the number of values up to one, which counts those not above the greatest equivalent of it;
- the number of values equivalent to one, as long as it has a counter of its own;
- the sums of counters, none of which leaves a word.

A value beyond the counters is above every recorded one, so the number of values up to it is right
nevertheless. The count of its equivalents is that of the last counter.

Does not own: the quotient that turns a number of values into a percentage.
-/

namespace LogLinear.Histogram

namespace Counts

variable {histogram : Histogram} {values : List Nat} (counts : histogram.Counts values)
include counts

/-- A recorded value is counted up to the place of another just when its cell is not above that of
the other. The last counter is no bound to this: every recorded value has a counter. -/
theorem cell_le_lookupIndex_iff {recorded : Nat} (member : recorded ∈ values) (value : Nat) :
    histogram.layout.cell recorded ≤ histogram.lookupIndex value ↔
      histogram.layout.cell recorded ≤ histogram.layout.cell value := by
  have counted := cell_lt_size counts.sound (counts.trackable recorded member)
  rw [lookupIndex, le_min_iff]
  exact and_iff_left (Nat.le_sub_one_of_lt counted)

theorem countUpTo_eq (value : Nat) :
    histogram.countUpTo value = values.countP (· ≤ histogram.layout.ceiling value) := by
  rw [countUpTo, counts.countBefore_eq, List.countP_map]
  apply List.countP_congr
  intro recorded member
  rw [Function.comp_apply, decide_eq_true_eq, decide_eq_true_eq, Nat.lt_succ_iff,
    counts.cell_le_lookupIndex_iff member, Layout.le_ceiling_iff]

theorem percentUpTo_eq (value : Nat) :
    histogram.percentUpTo value =
      if values = [] then 100.0
      else percentOf (values.countP (· ≤ histogram.layout.ceiling value)) values.length := by
  have total := counts.total_eq_length
  have isEmpty : histogram.isEmpty = true ↔ values = [] := by
    rw [Histogram.isEmpty, decide_eq_true_eq, total, List.length_eq_zero_iff]
  rw [percentUpTo, counts.countUpTo_eq, total]
  exact if_congr isEmpty rfl rfl

theorem count_cell_eq (value : Nat) :
    histogram.count (histogram.layout.cell value) =
      values.countP (histogram.layout.Equivalent · value) := by
  rw [counts.count_eq, List.count_eq_countP, List.countP_map]
  apply List.countP_congr
  intro recorded _
  rw [Function.comp_apply, beq_iff_eq, decide_eq_true_eq, Layout.Equivalent,
    Layout.floor_eq_floor_iff]

theorem countOf_eq (value : Nat) :
    histogram.countOf value =
      if histogram.layout.cell value < histogram.counters.size then
        values.countP (histogram.layout.Equivalent · value)
      else histogram.count (histogram.counters.size - 1) := by
  rw [countOf, lookupIndex]
  split
  next counted => rw [min_eq_left (Nat.le_sub_one_of_lt counted), counts.count_cell_eq]
  next beyond => rw [min_eq_right ((Nat.sub_le _ _).trans (Nat.le_of_not_lt beyond))]

end Counts

/-- Whatever has been recorded and refused, the values up to a given one are counted exactly, for
values within the layout and beyond it, by sums that fit in words; and the values equivalent to it
are counted exactly if it has a counter. -/
theorem lookups_of_recorded (layout : Layout) (excess : Excess) (ratio : Float)
    (records : List (Nat × Nat)) (value : Nat) :
    let histogram := (fresh layout excess ratio).keepEach records
    let values := (fresh layout excess ratio).addedEach records
    (histogram.countUpTo value = values.countP (· ≤ layout.ceiling value) ∧
      histogram.percentUpTo value =
        if values = [] then 100.0
        else percentOf (values.countP (· ≤ layout.ceiling value)) values.length) ∧
    (∀ index, histogram.countBefore index ≤ Word.max) ∧
    histogram.countOf value =
      if layout.cell value < histogram.counters.size then
        values.countP (layout.Equivalent · value)
      else histogram.count (histogram.counters.size - 1) := by
  intro histogram values
  have counts : histogram.Counts values := (Counts.fresh layout excess ratio).keepEach records
  have sameLayout : histogram.layout = layout := layout_keepEach _ records
  have upTo := counts.countUpTo_eq value
  have percent := counts.percentUpTo_eq value
  have equivalent := counts.countOf_eq value
  rw [sameLayout] at upTo percent equivalent
  refine ⟨⟨upTo, percent⟩, ?_, equivalent⟩
  intro index
  exact (histogram.countBefore_le index).trans (counts.sound.total_eq ▸ counts.sound.total_le)

/-- The two values that were clamped to 8 are equivalent to 12, and not to 100. They are counted for it
nevertheless, as it has no counter. -/
theorem lookups_of_sampleRecords :
    let histogram := (fresh .dyadic .clamp 1.0).keepEach sampleRecords
    (fresh .dyadic .clamp 1.0).addedEach sampleRecords = [8, 8, 1] ∧
    (histogram.countUpTo 5 = 1 ∧ histogram.countUpTo 100 = 3) ∧
    histogram.countOf 12 = 2 ∧ histogram.countOf 100 = 2 := by
  intro histogram
  have values : (fresh .dyadic .clamp 1.0).addedEach sampleRecords = [8, 8, 1] := by
    decide +kernel
  obtain ⟨⟨upToFive, -⟩, -, -⟩ := lookups_of_recorded .dyadic .clamp 1.0 sampleRecords 5
  obtain ⟨-, -, ofTwelve⟩ := lookups_of_recorded .dyadic .clamp 1.0 sampleRecords 12
  obtain ⟨⟨upToHundred, -⟩, -, ofHundred⟩ :=
    lookups_of_recorded .dyadic .clamp 1.0 sampleRecords 100
  rw [values] at upToFive upToHundred ofTwelve
  have counted : Layout.cell .dyadic 12 < histogram.counters.size := by decide +kernel
  have beyond : ¬ Layout.cell .dyadic 100 < histogram.counters.size := by decide +kernel
  rw [if_pos counted] at ofTwelve
  rw [if_neg beyond] at ofHundred
  exact ⟨values, ⟨upToFive.trans (by decide +kernel), upToHundred.trans (by decide +kernel)⟩,
    ofTwelve.trans (by decide +kernel), ofHundred.trans (by decide +kernel)⟩

end LogLinear.Histogram
