import LogLinear.Histogram.Summary

/-!
Contract: collectors, which count values as histograms do but keep only the counters and the total.

Every change of a collector is one addition to one word, which makes it fit for words that several
writers share. What is read from it is read from a snapshot.

Owns:
- recording in a collector, where only the total is checked and counters are added to without a
  carry;
- the snapshot, a histogram with the counters of the moment.

Does not own: the scheduling of writers. Operations here come one after the other.
-/

namespace LogLinear

/-- Counters for the cells of a layout, with their total. -/
structure Collector where
  layout : Layout
  excess : Excess
  /-- The factor that turns recorded integers back into the measured quantity. -/
  ratio : Float
  counters : Array Nat
  /-- The number of recorded values. -/
  total : Nat

namespace Collector

/-- Nothing recorded, with the rule and ratio of an empty histogram. -/
def empty (layout : Layout) : Collector where
  layout := layout
  excess := .reject
  ratio := 1.0
  counters := Array.replicate layout.cellCount 0
  total := 0

/-- The same collector with everything that was recorded removed. -/
def cleared (collector : Collector) : Collector :=
  { collector with
    counters := Array.replicate collector.counters.size 0
    total := 0 }

/-- Adds occurrences of a value that is known to be in range. -/
@[inline]
def tally (collector : Collector) (value count : Nat) : Collector :=
  { collector with
    counters := collector.counters.modify (collector.layout.cell value) (Word.wrappingSum · count)
    total := collector.total + count }

/-- Adds occurrences of a value, if the total has room for them. -/
@[inline]
def recordMany (collector : Collector) (value count : Nat) : Except Fault Collector :=
  match collector.excess.accept collector.layout value with
  | none => .error .outOfRange
  | some accepted =>
    if collector.total + count ≤ Word.max then .ok (collector.tally accepted count)
    else .error .overflow

/-- Adds one occurrence of a value. -/
@[inline]
def record (collector : Collector) (value : Nat) : Except Fault Collector :=
  collector.recordMany value 1

/-- The histogram of the counters. Its total is their sum, whatever the total of the collector is at
the moment, and its extent is that of the least values of the cells that hold a count. -/
def snapshot (collector : Collector) : Histogram where
  layout := collector.layout
  excess := collector.excess
  ratio := collector.ratio
  counters := collector.counters
  total := Word.cap (Histogram.sumOf collector.counters)
  extent := Histogram.extentOf collector.layout
    (Tally.gather collector.counters collector.counters.size [])

end Collector

end LogLinear
