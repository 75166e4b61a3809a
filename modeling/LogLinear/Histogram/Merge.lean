import LogLinear.Histogram.Record

/-!
Contract: adding the counts of one histogram to another.

Owns:
- the sum counter by counter, for histograms of one layout;
- recording the counts of one layout in another, each at the least value of its cell.

A refused merge gives no histogram, so neither of the two at hand changes.

Does not own: the way in which a single value is recorded.
-/

namespace LogLinear.Histogram

/-- The counters of two histograms, added in pairs. -/
def pairwiseSums (left right : Histogram) : Array Nat :=
  Array.zipWith (· + ·) left.counters right.counters

/-- Adds the counters of a histogram of the same layout. -/
def mergeCounters (histogram other : Histogram) : Except Fault Histogram :=
  let sums := histogram.pairwiseSums other
  if sums.all (· ≤ Word.max) ∧ histogram.total + other.total ≤ Word.max then
    .ok { histogram with
      counters := sums
      total := histogram.total + other.total
      extent := if other.total = 0 then histogram.extent
        else histogram.extent.join other.extent }
  else .error .overflow

/-- The counts of a histogram as recordings, each at the least value of its cell. -/
def records (histogram : Histogram) : List (Nat × Nat) :=
  histogram.tallies.map fun tally => (histogram.start tally.index, tally.count)

/-- Adds the counts of another histogram. -/
def merge (histogram other : Histogram) : Except Fault Histogram :=
  if histogram.layout = other.layout then histogram.mergeCounters other
  else histogram.recordEach other.records

end LogLinear.Histogram
