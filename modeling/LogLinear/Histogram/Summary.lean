import LogLinear.Histogram

/-!
Contract: what a histogram says about all recorded values at once.

Owns:
- the least and the greatest recorded value, as bounds of their cells;
- the mean and the standard deviation, with each value taken at the middle of its cell.

Does not own: the distribution of the values. `LogLinear.Histogram.Percentile` reads that.
-/

namespace LogLinear.Histogram

def isEmpty (histogram : Histogram) : Bool := histogram.total = 0

/-- The least value of the lowest cell that holds a count, or 0 if nothing was recorded. The extent
does not tell whether the cell of zero holds one. -/
def minimum (histogram : Histogram) : Nat :=
  if histogram.total = 0 ∨ histogram.count 0 ≠ 0 then 0
  else histogram.layout.floor histogram.extent.leastNonzero

/-- The greatest value of the highest cell that holds a count, or 0 if nothing was recorded. -/
def maximum (histogram : Histogram) : Nat :=
  if histogram.extent.greatest = 0 then 0
  else histogram.layout.ceiling histogram.extent.greatest

/-- The middle of a cell, as a number. -/
def middleOf (histogram : Histogram) (tally : Tally) : Float :=
  Word.toFloat (histogram.layout.middle (histogram.start tally.index))

/-- The average over all recorded values of a function of their cell. The terms are added from the
lowest cell to the highest one. -/
def average (histogram : Histogram) (term : Tally → Float) : Float :=
  histogram.tallies.foldl (fun sum tally => sum + term tally * Word.toFloat tally.count) 0.0 /
    Word.toFloat histogram.total

/-- The mean of the recorded values, or 0 if there are none. -/
def mean (histogram : Histogram) : Float :=
  if histogram.isEmpty then 0.0 else histogram.average histogram.middleOf

/-- The standard deviation of the recorded values, or 0 if there are none. -/
def deviation (histogram : Histogram) : Float :=
  if histogram.isEmpty then 0.0
  else
    let mean := histogram.mean
    (histogram.average fun tally =>
      let difference := histogram.middleOf tally - mean
      difference * difference).sqrt

end LogLinear.Histogram
