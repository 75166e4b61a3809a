import LogLinear.Histogram.Summary

/-!
Contract: percentiles of the recorded values.

Owns:
- the share of the recorded values up to a given one;
- the rank that a percentile asks for, and the cell of a rank;
- the value at a percentile.

Does not own: schedules of percentiles. `LogLinear.Traversal.Ticks` walks along one.
-/

namespace LogLinear.Histogram

/-- A count as a percentage of the total. -/
def percentOf (count total : Nat) : Float :=
  (100.0 * Word.toFloat count) / Word.toFloat total

/-- The number of recorded values up to the cell in which a value is looked up. -/
def countUpTo (histogram : Histogram) (value : Nat) : Nat :=
  histogram.countBefore (histogram.lookupIndex value + 1)

/-- The percentage of the recorded values that are less than or equivalent to a value. Of an empty
histogram it is 100. -/
def percentUpTo (histogram : Histogram) (value : Nat) : Float :=
  if histogram.isEmpty then 100.0
  else percentOf (histogram.countUpTo value) histogram.total

/-- The rank that a percentile asks for, counted from 1.

The level is first lowered to the next binary64 number below it, so that a percentile at which
a value was recorded exactly falls on that value and not on the one after. -/
def rank (level : Float) (total : Nat) : Nat :=
  let requested := if level > 0.0 then Float.ofBits (level.toBits - 1) else 0.0
  max 1 (Word.roundUp ((requested / 100.0) * Word.toFloat total))

/-- The first index, of the `remaining` ones from `index` on, at which the running count reaches a
rank, where `counted` values were counted before `index`. -/
def seekRank (counters : Array Nat) (rank : Nat) :
    (remaining index counted : Nat) → Option Nat
  | 0, _, _ => none
  | remaining + 1, index, counted =>
    let counted := counted + counters.getD index 0
    if rank ≤ counted then some index else seekRank counters rank remaining (index + 1) counted

/-- The index of the cell that holds the value of a rank, if the counters reach it. -/
def indexOfRank? (histogram : Histogram) (rank : Nat) : Option Nat :=
  seekRank histogram.counters rank histogram.counters.size 0 0

/-- The value at a percentile, which is the greatest one of its cell. The percentile 0 gives the
least value of the cell of the first rank. -/
def percentile (histogram : Histogram) (level : Float) : Except Fault Nat :=
  if 0.0 ≤ level ∧ level ≤ 100.0 then
    if histogram.isEmpty then .error .empty
    else match histogram.indexOfRank? (rank level histogram.total) with
      | some index =>
        let value := histogram.start index
        .ok (if level == 0.0 then histogram.layout.floor value
          else histogram.layout.ceiling value)
      | none => .ok histogram.maximum
  else .error .percentileInvalid

end LogLinear.Histogram
