import LogLinear.Excess
import LogLinear.Extent
import LogLinear.Layout.Cell

/-!
Contract: a histogram, which counts values by the cells of a layout.

Owns:
- the state: the counters, their total and the extent of the recorded values;
- the empty histogram and the one with given counters;
- reading a counter, the counters that are not zero, and sums of counters.

Does not own: recording, merging and statistics, which have modules of their own.
-/

namespace LogLinear

/-- Counters for the cells of a layout. -/
structure Histogram where
  layout : Layout
  excess : Excess
  /-- The factor that turns recorded integers back into the measured quantity. -/
  ratio : Float
  counters : Array Nat
  /-- The number of recorded values. -/
  total : Nat
  /-- The ends of the recorded values, up to equivalence. -/
  extent : Extent

/-- A cell that holds a count. -/
structure Tally where
  index : Nat
  count : Nat
deriving DecidableEq, Repr

/-- The counters below `bound` that are not zero, in order, followed by the given ones. -/
def Tally.gather (counters : Array Nat) : (bound : Nat) → List Tally → List Tally
  | 0, later => later
  | index + 1, later =>
    let count := counters.getD index 0
    gather counters index (if count = 0 then later else ⟨index, count⟩ :: later)

theorem Tally.gather_append (counters : Array Nat) (bound : Nat) (later : List Tally) :
    gather counters bound later = gather counters bound [] ++ later := by
  induction bound generalizing later with
  | zero => rfl
  | succ index inductionHypothesis =>
    simp only [gather]
    rw [inductionHypothesis, inductionHypothesis (if counters.getD index 0 = 0 then [] else _)]
    split <;> simp

/-- What is gathered are the counters below the bound that are not zero. -/
theorem Tally.mem_gather {counters : Array Nat} {bound : Nat} {tally : Tally} :
    tally ∈ gather counters bound [] ↔
      tally.index < bound ∧ tally.count = counters.getD tally.index 0 ∧ tally.count ≠ 0 := by
  induction bound with
  | zero => simp [gather]
  | succ index inductionHypothesis =>
    simp only [gather]
    rw [gather_append, List.mem_append, inductionHypothesis]
    constructor
    · rintro (⟨below, isCount, isHeld⟩ | last)
      · exact ⟨by omega, isCount, isHeld⟩
      · split at last
        · simp at last
        · rw [List.mem_singleton] at last
          subst last
          exact ⟨by simp, rfl, by assumption⟩
    · rintro ⟨below, isCount, isHeld⟩
      by_cases isLast : tally.index = index
      · subst isLast
        rw [← isCount]
        exact .inr (by simp [isHeld])
      · exact .inl ⟨by omega, isCount, isHeld⟩

namespace Histogram

/-- The sum of some counters. -/
def sumOf (counters : Array Nat) : Nat := counters.foldl (· + ·) 0

/-- Nothing recorded. Values above the range are rejected, and recorded integers stand for
themselves. -/
def empty (layout : Layout) : Histogram where
  layout := layout
  excess := .reject
  ratio := 1.0
  counters := Array.replicate layout.cellCount 0
  total := 0
  extent := .empty

/-- The same histogram with everything that was recorded removed. -/
def cleared (histogram : Histogram) : Histogram :=
  { histogram with
    counters := Array.replicate histogram.counters.size 0
    total := 0
    extent := .empty }

/-- The counters that are not zero, in the order of their values. -/
def tallies (histogram : Histogram) : List Tally :=
  Tally.gather histogram.counters histogram.counters.size []

/-- The count at an index. Beyond the last counter nothing is counted. -/
def count (histogram : Histogram) (index : Nat) : Nat := histogram.counters.getD index 0

/-- The least value counted at an index. -/
def start (histogram : Histogram) (index : Nat) : Nat := histogram.layout.start index

/-- The sum of the counters before an index. -/
def countBefore (histogram : Histogram) (index : Nat) : Nat :=
  sumOf (histogram.counters.take index)

/-- The counter in which a value is looked up: its own, or the last one for values beyond. -/
def lookupIndex (histogram : Histogram) (value : Nat) : Nat :=
  min (histogram.layout.cell value) (histogram.counters.size - 1)

/-- The number of recorded values that are equivalent to a value. Values beyond the last counter are
looked up there. -/
def countOf (histogram : Histogram) (value : Nat) : Nat :=
  histogram.count (histogram.lookupIndex value)

/-- The extent of the least values of some cells. -/
def extentOf (layout : Layout) (tallies : List Tally) : Extent :=
  tallies.foldl (fun extent tally => extent.cover layout.unitMask (layout.start tally.index))
    .empty

/-- The histogram with the given counters.

It is refused if there is not one counter for each cell, or if their sum is not a word. Its extent
is that of the least values of the cells that hold a count. -/
def ofCounters (layout : Layout) (counters : Array Nat) : Except Fault Histogram :=
  if counters.size = layout.cellCount then
    if sumOf counters ≤ Word.max then
      .ok { empty layout with
        counters := counters
        total := sumOf counters
        extent := extentOf layout (Tally.gather counters counters.size []) }
    else .error .overflow
  else .error .layoutMismatch

end Histogram

end LogLinear
