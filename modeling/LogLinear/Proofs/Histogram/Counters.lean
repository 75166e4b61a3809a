import LogLinear.Histogram
import Mathlib.Algebra.BigOperators.Group.Finset.Piecewise
import Mathlib.Algebra.GroupWithZero.Nat
import Mathlib.Algebra.Order.BigOperators.Group.Finset

/-!
Contract: sums of counters.

Owns:
- the sum of an array of counters as a sum over indices, gathered or not;
- the sums of the counters before an index;
- what becomes of the sum when one counter grows, and when two arrays are added in pairs;
- equality of arrays of counters, index by index.

Does not own: the histograms that hold the counters.
-/

namespace LogLinear.Histogram

open Finset

theorem getD_eq_zero_of_size_le {counters : Array Nat} {index : Nat}
    (beyond : counters.size ≤ index) : counters.getD index 0 = 0 := by
  simp [Array.getD, Nat.not_lt_of_le beyond]

theorem lt_size_of_getD_ne_zero {counters : Array Nat} {index : Nat}
    (held : counters.getD index 0 ≠ 0) : index < counters.size := by
  by_contra beyond
  exact held (getD_eq_zero_of_size_le (Nat.le_of_not_lt beyond))

theorem getD_eq_getElem {counters : Array Nat} {index : Nat} (inside : index < counters.size) :
    counters.getD index 0 = counters[index] := by
  simp [Array.getD, inside]

/-- Counters of one length that agree at every index are the same. -/
theorem counters_ext {left right : Array Nat} (size : left.size = right.size)
    (same : ∀ index, left.getD index 0 = right.getD index 0) : left = right := by
  apply Array.ext size
  intro index leftInside rightInside
  have equal := same index
  rwa [getD_eq_getElem leftInside, getD_eq_getElem rightInside] at equal

private theorem list_sum_eq (counts : List Nat) :
    counts.sum = ∑ index ∈ range counts.length, counts.getD index 0 := by
  induction counts with
  | nil => rfl
  | cons count rest inductionHypothesis =>
      rw [List.sum_cons, List.length_cons, sum_range_succ', inductionHypothesis, Nat.add_comm]
      rfl

theorem sumOf_eq_sum_range (counters : Array Nat) :
    sumOf counters = ∑ index ∈ range counters.size, counters.getD index 0 := by
  have asList : sumOf counters = counters.toList.sum := by
    rw [sumOf, ← Array.foldl_toList, List.sum_eq_foldl]
  rw [asList, list_sum_eq, Array.length_toList]
  apply sum_congr rfl
  intro index _
  rw [List.getD_eq_getElem?_getD, Array.getElem?_toList, Array.getD_eq_getD_getElem?]

theorem getD_le_sumOf (counters : Array Nat) (index : Nat) :
    counters.getD index 0 ≤ sumOf counters := by
  by_cases inside : index < counters.size
  · rw [sumOf_eq_sum_range]
    exact single_le_sum (f := fun index => counters.getD index 0) (fun _ _ => Nat.zero_le _)
      (mem_range.mpr inside)
  · rw [getD_eq_zero_of_size_le (Nat.le_of_not_lt inside)]
    exact Nat.zero_le _

theorem sumOf_eq_zero_iff {counters : Array Nat} :
    sumOf counters = 0 ↔ ∀ index, counters.getD index 0 = 0 := by
  constructor
  · intro zero index
    have bound := getD_le_sumOf counters index
    omega
  · intro zero
    rw [sumOf_eq_sum_range]
    exact sum_eq_zero fun index _ => zero index

theorem getD_replicate (size index : Nat) : (Array.replicate size 0).getD index 0 = 0 := by
  rw [Array.getD_eq_getD_getElem?, Array.getElem?_replicate]
  split <;> rfl

theorem sumOf_replicate (size : Nat) : sumOf (Array.replicate size 0) = 0 :=
  sumOf_eq_zero_iff.mpr (getD_replicate size)

/-- Terms that are zero for empty counters need not be gathered. -/
theorem sum_gather (counters : Array Nat) (term : Tally → Nat)
    (zero : ∀ index, term ⟨index, 0⟩ = 0) (bound : Nat) :
    ((Tally.gather counters bound []).map term).sum =
      ∑ index ∈ range bound, term ⟨index, counters.getD index 0⟩ := by
  induction bound with
  | zero => rfl
  | succ index inductionHypothesis =>
      rw [Tally.gather, Tally.gather_append, List.map_append, List.sum_append,
        inductionHypothesis, sum_range_succ]
      by_cases none : counters.getD index 0 = 0
      · rw [if_pos none, none, zero]
        rfl
      · rw [if_neg none]
        rfl

theorem map_count_range (histogram : Histogram) :
    (List.range histogram.counters.size).map histogram.count = histogram.counters.toList := by
  apply List.ext_getElem
  · rw [List.length_map, List.length_range, Array.length_toList]
  · intro index inside _
    rw [List.length_map, List.length_range] at inside
    rw [List.getElem_map, List.getElem_range, count, getD_eq_getElem inside, Array.getElem_toList]

/-! ### The counters before an index -/

section Before

variable (histogram : Histogram)

theorem countBefore_eq_sum (index : Nat) :
    histogram.countBefore index = ∑ before ∈ range index, histogram.count before := by
  have size : (histogram.counters.take index).size = min index histogram.counters.size := by
    rw [Array.take_eq_extract, Array.size_extract, Nat.sub_zero]
  have kept : ∀ before ∈ range (min index histogram.counters.size),
      (histogram.counters.take index).getD before 0 = histogram.count before := by
    intro before inside
    rw [mem_range] at inside
    rw [getD_eq_getElem (size.symm ▸ inside), count, getD_eq_getElem (by omega)]
    simp
  rw [countBefore, sumOf_eq_sum_range, size, sum_congr rfl kept]
  apply sum_subset (range_mono (min_le_left _ _))
  intro before inside outside
  rw [mem_range] at inside outside
  exact getD_eq_zero_of_size_le (by omega)

@[simp]
theorem countBefore_zero : histogram.countBefore 0 = 0 := by
  rw [countBefore_eq_sum, range_zero, sum_empty]

theorem countBefore_succ (index : Nat) :
    histogram.countBefore (index + 1) = histogram.countBefore index + histogram.count index := by
  rw [countBefore_eq_sum, countBefore_eq_sum, sum_range_succ]

theorem countBefore_mono : Monotone histogram.countBefore := by
  apply monotone_nat_of_le_succ
  intro index
  rw [countBefore_succ]
  exact Nat.le_add_right _ _

theorem countBefore_of_size_le {index : Nat} (beyond : histogram.counters.size ≤ index) :
    histogram.countBefore index = sumOf histogram.counters := by
  rw [countBefore, Array.take_eq_extract, Array.extract_eq_self_of_le beyond]

theorem countBefore_le (index : Nat) : histogram.countBefore index ≤ sumOf histogram.counters := by
  rcases le_total histogram.counters.size index with beyond | inside
  · exact (histogram.countBefore_of_size_le beyond).le
  · rw [← histogram.countBefore_of_size_le le_rfl]
    exact histogram.countBefore_mono inside

theorem lt_size_of_countBefore_lt {index : Nat}
    (less : histogram.countBefore index < sumOf histogram.counters) :
    index < histogram.counters.size := by
  by_contra beyond
  exact less.ne (histogram.countBefore_of_size_le (Nat.le_of_not_lt beyond))

/-- Nothing is counted after the counters that have the whole sum. -/
theorem count_eq_zero_of_countBefore_eq {index later : Nat}
    (whole : histogram.countBefore index = sumOf histogram.counters) (after : index ≤ later) :
    histogram.count later = 0 := by
  have low := histogram.countBefore_mono after
  have high := histogram.countBefore_le (later + 1)
  rw [countBefore_succ] at high
  omega

/-- The counters before an index have the whole sum if nothing is counted from there on. -/
theorem countBefore_eq_sumOf {index : Nat}
    (none : ∀ later, index ≤ later → histogram.count later = 0) :
    histogram.countBefore index = sumOf histogram.counters := by
  rcases le_total histogram.counters.size index with beyond | inside
  · exact histogram.countBefore_of_size_le beyond
  · rw [← histogram.countBefore_of_size_le le_rfl]
    generalize histogram.counters.size = size at inside
    induction size, inside using Nat.le_induction with
    | base => rfl
    | succ later above inductionHypothesis =>
        rw [countBefore_succ, none later above, Nat.add_zero]
        exact inductionHypothesis

end Before

/-! ### One counter grows -/

theorem getD_modify (counters : Array Nat) (change : Nat → Nat) {place : Nat}
    (inside : place < counters.size) (index : Nat) :
    (counters.modify place change).getD index 0 =
      if index = place then change (counters.getD place 0) else counters.getD index 0 := by
  rw [Array.getD_eq_getD_getElem?, Array.getElem?_modify]
  by_cases same : place = index
  · subst same
    simp [inside, Array.getD]
  · rw [if_neg same, if_neg (Ne.symm same), Array.getD_eq_getD_getElem?]

theorem sumOf_modify_add (counters : Array Nat) (count : Nat) {place : Nat}
    (inside : place < counters.size) :
    sumOf (counters.modify place (· + count)) = sumOf counters + count := by
  rw [sumOf_eq_sum_range, sumOf_eq_sum_range, Array.size_modify]
  have split : ∀ index, (counters.modify place (· + count)).getD index 0 =
      counters.getD index 0 + if index = place then count else 0 := by
    intro index
    rw [getD_modify counters _ inside]
    by_cases same : index = place
    · rw [if_pos same, if_pos same, same]
    · rw [if_neg same, if_neg same, Nat.add_zero]
  rw [sum_congr rfl fun index _ => split index, sum_add_distrib,
    sum_ite_eq' (range counters.size) place, if_pos (mem_range.mpr inside)]

/-! ### Two arrays are added -/

theorem getD_zipWith_add {left right : Array Nat} (size : left.size = right.size) (index : Nat) :
    (Array.zipWith (· + ·) left right).getD index 0 = left.getD index 0 + right.getD index 0 := by
  by_cases inside : index < left.size
  · have rightInside : index < right.size := size ▸ inside
    have sumInside : index < (Array.zipWith (· + ·) left right).size := by
      rw [Array.size_zipWith]
      omega
    rw [getD_eq_getElem inside, getD_eq_getElem rightInside, getD_eq_getElem sumInside,
      Array.getElem_zipWith]
  · have beyond := Nat.le_of_not_lt inside
    have rightBeyond : right.size ≤ index := size ▸ beyond
    have sumBeyond : (Array.zipWith (· + ·) left right).size ≤ index := by
      rw [Array.size_zipWith]
      omega
    rw [getD_eq_zero_of_size_le sumBeyond, getD_eq_zero_of_size_le beyond,
      getD_eq_zero_of_size_le rightBeyond]

theorem sumOf_zipWith_add {left right : Array Nat} (size : left.size = right.size) :
    sumOf (Array.zipWith (· + ·) left right) = sumOf left + sumOf right := by
  have sums : (Array.zipWith (· + ·) left right).size = left.size := by
    rw [Array.size_zipWith]
    omega
  rw [sumOf_eq_sum_range, sumOf_eq_sum_range, sumOf_eq_sum_range, sums, ← size,
    ← sum_add_distrib]
  exact sum_congr rfl fun index _ => getD_zipWith_add size index

end LogLinear.Histogram
