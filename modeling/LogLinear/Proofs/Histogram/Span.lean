import LogLinear.Histogram
import LogLinear.Proofs.Cell.Unit
import LogLinear.Proofs.Histogram.Counters
import Mathlib.Order.Bounds.Basic

/-!
Contract: the cells that an extent stands for.

Owns:
- the relation of an extent to the set of the cells that hold a count;
- the spans of one value, of two sets together and of a list of tallies.

Does not own: which cells hold a count after an operation. `LogLinear.Proofs.Histogram.Sound` does.
-/

namespace LogLinear

/-- A word stands for the least cell of a set, or is neutral if the set is empty. -/
def Layout.IsLow (layout : Layout) (cells : Set Nat) (word : Nat) : Prop :=
  cells = ∅ ∧ word = Word.max ∨ IsLeast cells (layout.cell word)

/-- A word with the bits within its unit set stands for the greatest cell of a set, or is neutral if
the set is empty. -/
def Layout.IsHigh (layout : Layout) (cells : Set Nat) (word : Nat) : Prop :=
  cells = ∅ ∧ word = 0 ∨ layout.unitMask ≤ word ∧ IsGreatest cells (layout.cell word)

/-- The words of an extent may be any words of the cells that they stand for. The greatest value
stands for the highest cell of the set, the least one for the lowest cell besides that of zero. -/
structure Layout.Spans (layout : Layout) (held : Set Nat) (extent : Extent) : Prop where
  least_le : extent.leastNonzero ≤ Word.max
  greatest_le : extent.greatest ≤ Word.max
  isLow : layout.IsLow (held \ {0}) extent.leastNonzero
  isHigh : layout.IsHigh held extent.greatest

namespace Layout

variable {layout : Layout}

/-! ### One end -/

theorem IsLow.union {first second : Set Nat} {left right : Nat} (leftWord : left ≤ Word.max)
    (rightWord : right ≤ Word.max) (leftLow : layout.IsLow first left)
    (rightLow : layout.IsLow second right) :
    layout.IsLow (first ∪ second) (min left right) := by
  rcases leftLow with ⟨rfl, rfl⟩ | leftLeast
  · rw [Set.empty_union, Nat.min_eq_right rightWord]
    exact rightLow
  · rcases rightLow with ⟨rfl, rfl⟩ | rightLeast
    · rw [Set.union_empty, Nat.min_eq_left leftWord]
      exact .inr leftLeast
    · rw [IsLow, layout.cell_mono.map_min]
      exact .inr (leftLeast.union rightLeast)

theorem IsHigh.union {first second : Set Nat} {left right : Nat}
    (leftHigh : layout.IsHigh first left) (rightHigh : layout.IsHigh second right) :
    layout.IsHigh (first ∪ second) (max left right) := by
  rcases leftHigh with ⟨rfl, rfl⟩ | ⟨leftMask, leftGreatest⟩
  · rw [Set.empty_union, Nat.zero_max]
    exact rightHigh
  · rcases rightHigh with ⟨rfl, rfl⟩ | ⟨-, rightGreatest⟩
    · rw [Set.union_empty, Nat.max_zero]
      exact .inr ⟨leftMask, leftGreatest⟩
    · rw [IsHigh, layout.cell_mono.map_max]
      exact .inr ⟨leftMask.trans (Nat.le_max_left _ _), leftGreatest.union rightGreatest⟩

/-! ### Both ends -/

variable (layout)

theorem spans_empty : layout.Spans ∅ .empty where
  least_le := le_rfl
  greatest_le := Nat.zero_le _
  isLow := .inl ⟨Set.empty_sdiff _, rfl⟩
  isHigh := .inl ⟨rfl, rfl⟩

/-- Nothing but the empty extent stands for no cells. -/
theorem eq_empty_of_spans {extent : Extent} (spans : layout.Spans ∅ extent) : extent = .empty := by
  obtain ⟨leastNonzero, greatest⟩ := extent
  obtain ⟨-, -, isLow, isHigh⟩ := spans
  rw [Set.empty_sdiff] at isLow
  have least : leastNonzero = Word.max := by
    rcases isLow with ⟨-, neutral⟩ | least
    · exact neutral
    · exact absurd least.1 (Set.notMem_empty _)
  have greatest : greatest = 0 := by
    rcases isHigh with ⟨-, neutral⟩ | ⟨-, greatest⟩
    · exact neutral
    · exact absurd greatest.1 (Set.notMem_empty _)
  rw [least, greatest, Extent.empty]

theorem spans_join {first second : Set Nat} {left right : Extent}
    (leftSpans : layout.Spans first left) (rightSpans : layout.Spans second right) :
    layout.Spans (first ∪ second) (left.join right) where
  least_le := (Nat.min_le_left _ _).trans leftSpans.least_le
  greatest_le := Nat.max_le.mpr ⟨leftSpans.greatest_le, rightSpans.greatest_le⟩
  isLow := by
    rw [Set.union_sdiff_distrib]
    exact leftSpans.isLow.union leftSpans.least_le rightSpans.least_le rightSpans.isLow
  isHigh := leftSpans.isHigh.union rightSpans.isHigh

/-- The extent of a value of the first unit has no least value. -/
theorem spans_single {value : Nat} (word : value ≤ Word.max) :
    layout.Spans {layout.cell value} (Extent.empty.cover layout.unitMask value) := by
  have cleared := (Nat.and_le_left (n := value) (m := Word.complement layout.unitMask)).trans word
  have isHigh : layout.IsHigh {layout.cell value} (value ||| layout.unitMask) := by
    refine .inr ⟨Nat.right_le_or, ?_⟩
    rw [cell_or_unitMask]
    exact isGreatest_singleton
  rw [Extent.cover_eq, Extent.empty, Nat.zero_max]
  by_cases beyond : layout.unitMask < value
  · have nonzero := layout.unitMask_lt_iff.mp beyond
    rw [if_pos beyond, Nat.min_eq_right cleared]
    refine ⟨cleared, layout.or_unitMask_le word, .inr ?_, isHigh⟩
    rw [Set.sdiff_singleton_eq_self (Set.notMem_singleton_iff.mpr nonzero.symm),
      layout.cell_and_complement_unitMask word]
    exact isLeast_singleton
  · have zero : layout.cell value = 0 := by
      by_contra nonzero
      exact beyond (layout.unitMask_lt_iff.mpr nonzero)
    rw [if_neg beyond]
    exact ⟨le_rfl, layout.or_unitMask_le word, .inl ⟨by rw [zero, Set.sdiff_self], rfl⟩, isHigh⟩

theorem spans_cover {held : Set Nat} {extent : Extent} {value : Nat}
    (spans : layout.Spans held extent) (word : value ≤ Word.max) :
    layout.Spans (held ∪ {layout.cell value}) (extent.cover layout.unitMask value) := by
  rw [← Extent.join_empty spans.least_le, ← Extent.join_cover]
  exact layout.spans_join spans (layout.spans_single word)

/-- Covering the starts of some cells, one after the other, adds just these cells. -/
theorem spans_foldl_cover {tallies : List Tally}
    (inside : ∀ tally ∈ tallies, tally.index ≤ layout.cell Word.max) {held : Set Nat}
    {extent : Extent} (spans : layout.Spans held extent) :
    layout.Spans (held ∪ {index | ∃ tally ∈ tallies, tally.index = index})
      (tallies.foldl
        (fun extent tally => extent.cover layout.unitMask (layout.start tally.index)) extent) := by
  induction tallies generalizing held extent with
  | nil =>
      have none : {index | ∃ tally ∈ ([] : List Tally), tally.index = index} = ∅ := by simp
      rw [none, Set.union_empty]
      exact spans
  | cons tally rest inductionHypothesis =>
      have covered := layout.spans_cover spans (layout.start_le_max tally.index)
      rw [layout.cell_start (inside tally List.mem_cons_self)] at covered
      have split : {index | ∃ other ∈ tally :: rest, other.index = index} =
          {tally.index} ∪ {index | ∃ other ∈ rest, other.index = index} := by
        ext index
        simp [eq_comm]
      rw [split, ← Set.union_assoc, List.foldl_cons]
      exact inductionHypothesis
        (fun other member => inside other (List.mem_cons_of_mem tally member)) covered

end Layout

namespace Histogram

/-- The indices of the counters that are not zero. -/
def held (histogram : Histogram) : Set Nat := {index | histogram.count index ≠ 0}

theorem spans_extentOf {layout : Layout} {counters : Array Nat}
    (size : counters.size = layout.cellCount) :
    layout.Spans {index | counters.getD index 0 ≠ 0}
      (extentOf layout (Tally.gather counters counters.size [])) := by
  have inside : ∀ tally ∈ Tally.gather counters counters.size [],
      tally.index ≤ layout.cell Word.max := by
    intro tally member
    have counted := (Tally.mem_gather.mp member).1
    exact layout.le_cell_max (size ▸ counted)
  have gathered : {index | counters.getD index 0 ≠ 0} =
      {index | ∃ tally ∈ Tally.gather counters counters.size [], tally.index = index} := by
    ext index
    constructor
    · intro nonzero
      exact ⟨⟨index, counters.getD index 0⟩,
        Tally.mem_gather.mpr ⟨lt_size_of_getD_ne_zero nonzero, rfl, nonzero⟩, rfl⟩
    · rintro ⟨tally, member, rfl⟩
      obtain ⟨-, isCount, nonzero⟩ := Tally.mem_gather.mp member
      rw [Set.mem_ofPred_eq, ← isCount]
      exact nonzero
  have spans := layout.spans_foldl_cover inside layout.spans_empty
  rw [Set.empty_union, ← gathered] at spans
  exact spans

end Histogram

end LogLinear
