import LogLinear.Proofs.Histogram.Alike
import LogLinear.Proofs.Histogram.Conservation
import LogLinear.Proofs.Histogram.Held
import LogLinear.Proofs.Histogram.Recorded

/-!
Contract: merging histograms of one layout counter by counter, and recording each count instead.

Owns:
- histograms that count within the trackable range, as recordings leave them;
- the records of such a histogram, none of which is refused or clamped, and which send to each
  counter what the histogram has there;
- the agreement of the two ways to merge, in their answers and in their results.

Does not own: merges between layouts, where only the second way is open.
-/

namespace LogLinear.Histogram

open Finset

/-- No count is in a cell above that of the highest trackable value. -/
def Within (histogram : Histogram) : Prop :=
  ∀ index, histogram.count index ≠ 0 → index ≤ histogram.layout.cell histogram.layout.highest

/-! ### Recordings stay within the range -/

namespace Within

variable {histogram : Histogram}

theorem fresh (layout : Layout) (excess : Excess) (ratio : Float) :
    (Histogram.fresh layout excess ratio).Within := by
  intro index isHeld
  exact absurd (getD_replicate layout.cellCount index) isHeld

theorem tally (within : histogram.Within) (sound : histogram.Sound) {value : Nat} (count : Nat)
    (trackable : value ≤ histogram.layout.highest) : (histogram.tally value count).Within := by
  intro index isHeld
  rw [count_tally _ _ _ _ (cell_lt_size sound trackable)] at isHeld
  by_cases isPlace : index = histogram.layout.cell value
  · rw [isPlace]
    exact histogram.layout.cell_mono trackable
  · rw [if_neg isPlace, Nat.add_zero] at isHeld
    exact within index isHeld

theorem recordMany (within : histogram.Within) (sound : histogram.Sound) (value count : Nat) :
    (kept histogram (histogram.recordMany value count)).Within := by
  apply kept_induction within
  intro after recorded
  obtain ⟨accepted, isAccepted, -, rfl⟩ := recordMany_eq_ok_iff.mp recorded
  exact within.tally sound count (Excess.le_highest_of_accept isAccepted)

theorem keepEach (within : histogram.Within) (sound : histogram.Sound)
    (records : List (Nat × Nat)) : (histogram.keepEach records).Within := by
  induction records generalizing histogram with
  | nil => exact within
  | cons record rest inductionHypothesis =>
      exact inductionHypothesis (within.recordMany sound record.1 record.2)
        (kept_induction sound fun _ => sound_recordMany sound)

/-! ### The records of a histogram within the range -/

variable (within : histogram.Within)
include within

theorem start_le_highest {index : Nat} (isHeld : histogram.count index ≠ 0) :
    histogram.start index ≤ histogram.layout.highest := by
  have below := histogram.layout.edge_le_iff.mpr (within index isHeld)
  rw [start, histogram.layout.start_eq]
  exact (Nat.min_le_left _ _).trans below

theorem accept_ne_none (excess : Excess) :
    ∀ record ∈ histogram.records, excess.accept histogram.layout record.1 ≠ none := by
  intro record member
  obtain ⟨index, isHeld, rfl⟩ := mem_records.mp member
  rw [Excess.accept_of_le (within.start_le_highest isHeld)]
  exact Option.some_ne_none _

/-- The least value of a cell leads back to its index, so each count is sent to its own place. -/
theorem sent_records (sound : histogram.Sound) (index : Nat) :
    sent histogram.layout histogram.records index = histogram.count index := by
  have own : ∀ source ∈ range histogram.counters.size,
      (if histogram.layout.cell (min (histogram.start source) histogram.layout.highest) = index
        then histogram.count source else 0) =
      if source = index then histogram.count source else 0 := by
    intro source inside
    by_cases none : histogram.count source = 0
    · rw [none, ite_self, ite_self]
    · have counted := (mem_range.mp inside).trans_eq sound.size_eq
      rw [min_eq_left (within.start_le_highest none), start,
        histogram.layout.cell_start_of_counted counted]
  rw [sent, sum_records histogram _ fun _ => ite_self 0, sum_congr rfl own, sum_ite_eq']
  split_ifs with inside
  · rfl
  · rw [mem_range] at inside
    exact (getD_eq_zero_of_size_le (Nat.le_of_not_lt inside)).symm

end Within

/-! ### The two ways to merge -/

section Merges

variable {histogram other : Histogram} (sound : histogram.Sound) (otherSound : other.Sound)
  (same : histogram.layout = other.layout) (within : other.Within)
include sound otherSound same within

theorem counters_united_eq_tallyEach :
    (histogram.united other).counters = (histogram.tallyEach other.records).counters := by
  have size : histogram.counters.size = other.counters.size := by
    rw [sound.size_eq, otherSound.size_eq, same]
  apply counters_ext
  · rw [(histogram.tallyEach_frame other.records).2.2]
    exact size_pairwiseSums size
  · intro index
    have recorded := count_tallyEach sound.size_eq other.records index
    rw [same, within.sent_records otherSound] at recorded
    exact (getD_pairwiseSums size index).trans recorded.symm

/-- Both ways are refused only where the total has no room, and what they leave is alike. -/
theorem merge_alike_recordEach :
    Concur Alike (histogram.merge other) (histogram.recordEach other.records) := by
  have merged : histogram.merge other = histogram.mergeCounters other := if_pos same
  have mergeChecked := mergeCounters_eq sound otherSound same
  have eachChecked := recordEach_eq sound (same ▸ within.accept_ne_none histogram.excess)
  rw [countSum_records otherSound] at eachChecked
  rw [merged, eachChecked]
  by_cases room : histogram.total + other.total ≤ Word.max
  · rw [if_pos room] at mergeChecked ⊢
    have unitedSound := sound_mergeCounters sound otherSound same mergeChecked
    have eachSound := sound_tallyEach sound (countSum_records otherSound ▸ room)
    have frame := histogram.tallyEach_frame other.records
    have counters := counters_united_eq_tallyEach sound otherSound same within
    have total : (histogram.united other).total = (histogram.tallyEach other.records).total := by
      rw [total_tallyEach, countSum_records otherSound]
      rfl
    rw [mergeChecked]
    exact .accepted ⟨(layout_tallyEach histogram other.records).symm, frame.1.symm,
      frame.2.1.symm, counters, total, unitedSound, eachSound⟩
  · rw [if_neg room] at mergeChecked ⊢
    rw [mergeChecked]
    exact .refused .overflow

end Merges

/-- Merging two histograms of one layout is recording the counts of the second one in the first, in
the order of their cells and each at the least value of its cell, as long as the second one counts
within its trackable range, as recordings always do. Both ways are refused for one cause or succeed
together, whatever the rule for values above the range. If they succeed, they leave the same
counters, total and extremes. -/
theorem merge_concurs_with_recordEach {histogram other : Histogram}
    (reachable : histogram.Reachable) (otherReachable : other.Reachable)
    (same : histogram.layout = other.layout) (within : other.Within) :
    Concur Matches (histogram.merge other)
      (histogram.recordEach
        (other.heldIndices.map fun index => (other.start index, other.count index))) ∧
    ∀ layout excess ratio records, ((fresh layout excess ratio).keepEach records).Within := by
  rw [← records_eq_map]
  constructor
  · exact (merge_alike_recordEach (sound_of_reachable reachable)
      (sound_of_reachable otherReachable) same within).mono fun _ _ alike => alike.toMatches
  · intro layout excess ratio records
    exact (Within.fresh layout excess ratio).keepEach (sound_fresh layout excess ratio) records

/-- A histogram with two counts, the second of which is the given one. A value above the range was
refused in between. -/
def refilled (count : Nat) : Histogram := (empty .dyadic).keepEach [(1, 4), (9, 1), (6, count)]

/-- A merge that both ways make, and one for which both find no room. -/
theorem sample_merge_concurs :
    (sample.Reachable ∧ ∀ count, (refilled count).Reachable ∧
      sample.layout = (refilled count).layout ∧ (refilled count).Within) ∧
    (∃ merged recorded, sample.merge (refilled 3) = .ok merged ∧
      sample.recordEach [(1, 4), (4, 3)] = .ok recorded ∧ merged.Matches recorded ∧
      recorded.counters = #[0, 4, 1, 5, 0]) ∧
    sample.merge (refilled (Word.max - 4)) = .error .overflow ∧
    sample.recordEach [(1, 4), (4, Word.max - 4)] = .error .overflow := by
  have reachable : ∀ count, (refilled count).Reachable := fun count =>
    .recordedMany (.recordedMany (.recordedMany (.empty _) 1 4) 9 1) 6 count
  have same : ∀ count, sample.layout = (refilled count).layout := by
    intro count
    rw [refilled, layout_keepEach]
    decide +kernel
  have within : ∀ count, (refilled count).Within := fun count =>
    (Within.fresh .dyadic .reject 1.0).keepEach (sound_empty .dyadic) _
  have agree := fun count =>
    (merge_concurs_with_recordEach sample_reachable (reachable count) (same count)
      (within count)).1
  refine ⟨⟨sample_reachable, fun count => ⟨reachable count, same count, within count⟩⟩, ?_, ?_⟩
  · have concur := agree 3
    have records : (refilled 3).heldIndices.map
        (fun index => ((refilled 3).start index, (refilled 3).count index)) =
          [(1, 4), (4, 3)] := by
      decide +kernel
    have leaves :
        (sample.recordEach [(1, 4), (4, 3)]).map counters = .ok #[0, 4, 1, 5, 0] := by
      decide +kernel
    rw [records] at concur
    generalize sample.merge (refilled 3) = merging at concur
    generalize sample.recordEach [(1, 4), (4, 3)] = recording at concur leaves
    cases concur with
    | refused fault => cases leaves
    | accepted matching => exact ⟨_, _, rfl, rfl, matching, Except.ok.inj leaves⟩
  · have concur := agree (Word.max - 4)
    have records : (refilled (Word.max - 4)).heldIndices.map (fun index =>
        ((refilled (Word.max - 4)).start index, (refilled (Word.max - 4)).count index)) =
          [(1, 4), (4, Word.max - 4)] := by
      decide +kernel
    have refuses :
        (sample.recordEach [(1, 4), (4, Word.max - 4)]).map counters = .error .overflow := by
      decide +kernel
    rw [records] at concur
    generalize sample.merge (refilled (Word.max - 4)) = merging at concur
    generalize sample.recordEach [(1, 4), (4, Word.max - 4)] = recording at concur refuses
    cases concur with
    | refused fault =>
        cases refuses
        exact ⟨rfl, rfl⟩
    | accepted matching => cases refuses

end LogLinear.Histogram
