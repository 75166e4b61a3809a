import LogLinear.Histogram.Merge
import LogLinear.Proofs.Histogram.Span

/-!
Contract: the cells that hold a count, in the order of their values.

Owns:
- the list of their indices, and its order;
- the tallies and the records of a histogram, read off this list;
- the ends of the list, which are the cells of the extremes.

Does not own: how the cells came to hold their counts.
-/

namespace LogLinear.Histogram

/-- The indices of the counters that are not zero, from the lowest one to the highest. -/
def heldIndices (histogram : Histogram) : List Nat :=
  (List.range histogram.counters.size).filter fun index => histogram.count index ≠ 0

variable {histogram : Histogram} {index : Nat}

theorem mem_heldIndices : index ∈ histogram.heldIndices ↔ index ∈ histogram.held := by
  simp only [heldIndices, List.mem_filter, List.mem_range, decide_eq_true_eq]
  constructor
  · exact And.right
  · intro isHeld
    exact ⟨lt_size_of_getD_ne_zero isHeld, isHeld⟩

theorem pairwise_heldIndices (histogram : Histogram) : histogram.heldIndices.Pairwise (· < ·) :=
  List.pairwise_lt_range.filter _

theorem heldIndices_eq_nil_iff : histogram.heldIndices = [] ↔ histogram.held = ∅ := by
  simp only [List.eq_nil_iff_forall_not_mem, mem_heldIndices, Set.eq_empty_iff_forall_notMem]

theorem gather_eq_map (counters : Array Nat) (bound : Nat) :
    Tally.gather counters bound [] =
      ((List.range bound).filter fun index => counters.getD index 0 ≠ 0).map
        fun index => ⟨index, counters.getD index 0⟩ := by
  induction bound with
  | zero => rfl
  | succ index inductionHypothesis =>
      rw [Tally.gather, Tally.gather_append, inductionHypothesis, List.range_succ,
        List.filter_append, List.map_append]
      simp only [List.filter_cons, List.filter_nil, decide_eq_true_eq]
      split_ifs with none <;> simp_all only [List.map_nil, List.map_cons]

theorem tallies_eq_map (histogram : Histogram) :
    histogram.tallies = histogram.heldIndices.map fun index => ⟨index, histogram.count index⟩ :=
  gather_eq_map histogram.counters histogram.counters.size

theorem records_eq_map (histogram : Histogram) :
    histogram.records = histogram.heldIndices.map
      fun index => (histogram.start index, histogram.count index) := by
  rw [records, tallies_eq_map, List.map_map]
  rfl

/-! ### The ends of the list -/

theorem isLeast_of_head? (first : histogram.heldIndices.head? = some index) :
    IsLeast histogram.held index := by
  obtain ⟨rest, split⟩ := List.head?_eq_some_iff.mp first
  have ordered := histogram.pairwise_heldIndices
  rw [split, List.pairwise_cons] at ordered
  constructor
  · rw [← mem_heldIndices, split]
    exact List.mem_cons_self
  · intro other isHeld
    rw [← mem_heldIndices, split, List.mem_cons] at isHeld
    rcases isHeld with rfl | later
    · exact le_rfl
    · exact (ordered.1 other later).le

theorem isGreatest_of_getLast? (last : histogram.heldIndices.getLast? = some index) :
    IsGreatest histogram.held index := by
  obtain ⟨before, split⟩ := List.getLast?_eq_some_iff.mp last
  have ordered := histogram.pairwise_heldIndices
  rw [split, List.pairwise_append] at ordered
  constructor
  · rw [← mem_heldIndices, split]
    exact List.mem_concat_self
  · intro other isHeld
    rw [← mem_heldIndices, split, List.mem_append, List.mem_singleton] at isHeld
    rcases isHeld with earlier | rfl
    · exact (ordered.2.2 other earlier index (List.mem_singleton_self index)).le
    · exact le_rfl

end LogLinear.Histogram
