import LogLinear.Proofs.Histogram.Sound
import Mathlib.Algebra.BigOperators.Group.List.Basic

/-!
Contract: recordings and merges of one layout, without their checks.

Owns:
- recording without checks, whose result depends only on which records there are;
- the checks of recordings and merges, which all come down to the one on the sum of the counts;
- the union of two histograms, which takes recordings out of the one into the other.

Does not own: histograms of different layouts.
-/

namespace LogLinear

theorem Excess.accept_eq_min {excess : Excess} {layout : Layout} {value : Nat}
    (admitted : excess.accept layout value ≠ none) :
    excess.accept layout value = some (min value layout.highest) := by
  cases excess with
  | clamp => exact accept_clamp layout value
  | reject =>
      have trackable : value ≤ layout.highest := by
        by_contra above
        exact admitted (accept_eq_none_iff.mpr ⟨rfl, Nat.lt_of_not_le above⟩)
      rw [accept_of_le trackable, Nat.min_eq_left trackable]

namespace Histogram

/-- The number of occurrences in a list of records. -/
def countSum (records : List (Nat × Nat)) : Nat := (records.map Prod.snd).sum

theorem countSum_cons (record : Nat × Nat) (rest : List (Nat × Nat)) :
    countSum (record :: rest) = record.2 + countSum rest := List.sum_cons

theorem countSum_append (first second : List (Nat × Nat)) :
    countSum (first ++ second) = countSum first + countSum second := by
  rw [countSum, List.map_append, List.sum_append, countSum, countSum]

theorem countSum_perm {first second : List (Nat × Nat)} (same : first.Perm second) :
    countSum first = countSum second := (same.map Prod.snd).sum_eq

/-! ### Recording without checks -/

/-- Adds the occurrences of several values, each brought into the range, with no check. -/
def tallyEach (histogram : Histogram) (records : List (Nat × Nat)) : Histogram :=
  records.foldl (fun histogram record =>
    histogram.tally (min record.1 histogram.layout.highest) record.2) histogram

theorem tallyEach_cons (histogram : Histogram) (record : Nat × Nat) (rest : List (Nat × Nat)) :
    histogram.tallyEach (record :: rest) =
      (histogram.tally (min record.1 histogram.layout.highest) record.2).tallyEach rest := rfl

theorem tallyEach_append (histogram : Histogram) (first second : List (Nat × Nat)) :
    histogram.tallyEach (first ++ second) = (histogram.tallyEach first).tallyEach second :=
  List.foldl_append

theorem layout_tallyEach (histogram : Histogram) (records : List (Nat × Nat)) :
    (histogram.tallyEach records).layout = histogram.layout := by
  induction records generalizing histogram with
  | nil => rfl
  | cons record rest inductionHypothesis =>
      rw [tallyEach_cons, inductionHypothesis]
      rfl

theorem total_tallyEach (histogram : Histogram) (records : List (Nat × Nat)) :
    (histogram.tallyEach records).total = histogram.total + countSum records := by
  induction records generalizing histogram with
  | nil => rfl
  | cons record rest inductionHypothesis =>
      rw [tallyEach_cons, inductionHypothesis, countSum_cons, ← Nat.add_assoc]
      rfl

theorem sound_tallyEach {histogram : Histogram} (sound : histogram.Sound)
    {records : List (Nat × Nat)} (room : histogram.total + countSum records ≤ Word.max) :
    (histogram.tallyEach records).Sound := by
  induction records generalizing histogram with
  | nil => exact sound
  | cons record rest inductionHypothesis =>
      rw [countSum_cons] at room
      rw [tallyEach_cons]
      refine inductionHypothesis (sound_tally sound (Nat.min_le_right _ _) (by omega)) ?_
      change histogram.total + record.2 + countSum rest ≤ Word.max
      omega

theorem tally_comm (histogram : Histogram) (first firstCount second secondCount : Nat) :
    (histogram.tally first firstCount).tally second secondCount =
      (histogram.tally second secondCount).tally first firstCount := by
  have counters :
      (histogram.counters.modify (histogram.layout.cell first) (· + firstCount)).modify
          (histogram.layout.cell second) (· + secondCount) =
        (histogram.counters.modify (histogram.layout.cell second) (· + secondCount)).modify
          (histogram.layout.cell first) (· + firstCount) := by
    apply Array.ext
    · simp only [Array.size_modify]
    · intro index _ _
      simp only [Array.getElem_modify]
      split <;> split <;> omega
  have extents : ∀ (extent : Extent) (unitMask : Nat),
      (if secondCount = 0 then (if firstCount = 0 then extent else extent.cover unitMask first)
        else (if firstCount = 0 then extent else extent.cover unitMask first).cover unitMask
          second) =
      if firstCount = 0 then (if secondCount = 0 then extent else extent.cover unitMask second)
        else (if secondCount = 0 then extent else extent.cover unitMask second).cover unitMask
          first := by
    intro extent unitMask
    by_cases firstNone : firstCount = 0
    · simp only [firstNone, if_true]
    · by_cases secondNone : secondCount = 0
      · simp only [secondNone, if_true]
      · simp only [if_neg firstNone, if_neg secondNone, extent.cover_comm unitMask first second]
  simp only [tally, counters, extents, Nat.add_right_comm]

/-- The order of the recordings does not matter. -/
theorem tallyEach_perm (histogram : Histogram) {first second : List (Nat × Nat)}
    (same : first.Perm second) : histogram.tallyEach first = histogram.tallyEach second :=
  same.foldl_eq' (fun one _ other _ histogram =>
    histogram.tally_comm (min one.1 histogram.layout.highest) one.2
      (min other.1 histogram.layout.highest) other.2) histogram

/-! ### The checks -/

theorem recordMany_eq {histogram : Histogram} (sound : histogram.Sound) {value count : Nat}
    (admitted : histogram.excess.accept histogram.layout value ≠ none) :
    histogram.recordMany value count =
      if histogram.total + count ≤ Word.max then
        .ok (histogram.tally (min value histogram.layout.highest) count)
      else .error .overflow := by
  unfold recordMany
  rw [Excess.accept_eq_min admitted]
  simp only [hasRoom_iff sound]

/-- Recordings of admitted values succeed if and only if the total has room for all of them. -/
theorem recordEach_eq {histogram : Histogram} (sound : histogram.Sound)
    {records : List (Nat × Nat)}
    (admitted : ∀ record ∈ records,
      histogram.excess.accept histogram.layout record.1 ≠ none) :
    histogram.recordEach records =
      if histogram.total + countSum records ≤ Word.max then .ok (histogram.tallyEach records)
      else .error .overflow := by
  induction records generalizing histogram with
  | nil =>
      have room : histogram.total + countSum [] ≤ Word.max := sound.total_le
      rw [recordEach_nil, if_pos room]
      rfl
  | cons record rest inductionHypothesis =>
      have first : histogram.recordMany record.1 record.2 = _ :=
        recordMany_eq sound (admitted record List.mem_cons_self)
      rw [recordEach_cons, first, countSum_cons]
      by_cases room : histogram.total + record.2 ≤ Word.max
      · have later := inductionHypothesis
          (sound_tally sound (Nat.min_le_right record.1 _) room)
          (fun other member => admitted other (List.mem_cons_of_mem record member))
        rw [if_pos room, ← Nat.add_assoc]
        exact later
      · rw [if_neg room, if_neg (by omega)]
        rfl

/-! ### Unions -/

/-- The counters of two histograms added in pairs, with no check. -/
def united (left right : Histogram) : Histogram :=
  { left with
    counters := left.pairwiseSums right
    total := left.total + right.total
    extent := left.extent.join right.extent }

theorem mergeCounters_eq {left right : Histogram} (leftSound : left.Sound)
    (rightSound : right.Sound) (same : left.layout = right.layout) :
    left.mergeCounters right =
      if left.total + right.total ≤ Word.max then .ok (left.united right)
      else .error .overflow := by
  have size : left.counters.size = right.counters.size := by
    rw [leftSound.size_eq, rightSound.size_eq, same]
  unfold mergeCounters
  dsimp only
  by_cases room : left.total + right.total ≤ Word.max
  · have sums : (left.pairwiseSums right).all (· ≤ Word.max) = true := by
      rw [Array.all_eq_true]
      intro index inside
      have below := getD_le_sumOf (left.pairwiseSums right) index
      rw [getD_eq_getElem inside, sumOf_pairwiseSums size, ← leftSound.total_eq,
        ← rightSound.total_eq] at below
      exact decide_eq_true (below.trans room)
    rw [if_pos ⟨sums, room⟩, if_pos room, join_extent_eq rightSound leftSound.spans.least_le, united]
  · rw [if_neg (fun both => room both.2), if_neg room]

theorem united_empty {left right : Histogram} (size : left.counters.size = right.counters.size)
    (word : left.extent.leastNonzero ≤ Word.max) (zero : ∀ index, right.count index = 0)
    (total : right.total = 0) (extent : right.extent = .empty) : left.united right = left := by
  have counters : left.pairwiseSums right = left.counters := by
    apply counters_ext (size_pairwiseSums size)
    intro index
    rw [getD_pairwiseSums size, zero, Nat.add_zero]
    rfl
  rw [united, counters, total, extent, Extent.join_empty word, Nat.add_zero]

theorem united_tally {left right : Histogram} (same : left.layout = right.layout)
    (size : left.counters.size = right.counters.size) (value count : Nat)
    (inside : left.layout.cell value < left.counters.size) :
    left.united (right.tally value count) = (left.united right).tally value count := by
  have rightInside : right.layout.cell value < right.counters.size := by
    rw [← same, ← size]
    exact inside
  have tallySize : left.counters.size = (right.tally value count).counters.size :=
    size.trans (Array.size_modify ..).symm
  have counters : left.pairwiseSums (right.tally value count) =
      (left.pairwiseSums right).modify (left.layout.cell value) (· + count) := by
    have sumInside : left.layout.cell value < (left.pairwiseSums right).size :=
      inside.trans_eq (size_pairwiseSums size).symm
    apply counters_ext
    · rw [Array.size_modify, size_pairwiseSums size, size_pairwiseSums tallySize]
    · intro index
      rw [getD_modify _ _ sumInside, getD_pairwiseSums tallySize, getD_pairwiseSums size,
        getD_pairwiseSums size, right.count_tally value count index rightInside, ← same]
      by_cases isPlace : index = left.layout.cell value
      · rw [if_pos isPlace, if_pos isPlace, isPlace, Nat.add_assoc]
      · rw [if_neg isPlace, if_neg isPlace, Nat.add_zero]
  have extents : left.extent.join (if count = 0 then right.extent
        else right.extent.cover right.layout.unitMask value) =
      if count = 0 then left.extent.join right.extent
      else (left.extent.join right.extent).cover left.layout.unitMask value := by
    by_cases none : count = 0
    · rw [if_pos none, if_pos none]
    · rw [if_neg none, if_neg none, Extent.join_cover, same]
  rw [united, counters, tally, tally]
  simp only [united, extents, Nat.add_assoc]

/-- What was recorded in the second histogram might as well have been recorded in the union. -/
theorem united_tallyEach {left right : Histogram} (sound : left.Sound)
    (same : left.layout = right.layout) (size : left.counters.size = right.counters.size)
    (records : List (Nat × Nat)) :
    left.united (right.tallyEach records) = (left.united right).tallyEach records := by
  induction records generalizing right with
  | nil => rfl
  | cons record rest inductionHypothesis =>
      have inside := cell_lt_size sound (Nat.min_le_right record.1 left.layout.highest)
      have step := united_tally same size _ record.2 inside
      have later := @inductionHypothesis
        (right.tally (min record.1 left.layout.highest) record.2) same
        (size.trans (Array.size_modify ..).symm)
      rw [tallyEach_cons, ← same, later, step]
      rfl

end Histogram

end LogLinear
