import LogLinear.Proofs.Histogram.Reachable
import LogLinear.Proofs.Rank.Hundred
import LogLinear.Proofs.Rank.Nearest

/-!
Contract: the percentiles 0 and 100 beside the minimum and the maximum, which are kept apart from the
counters.

Owns:
- the percentile 0, which is the minimum;
- when the percentile 100 is the maximum, which is always so up to `2 ^ 52` values;
- values of which there is one more, and whose percentile 100 is not the maximum.

Does not own: the ranks that are asked for, which `LogLinear.Proofs.Rank.Hundred` has, nor what is
reported for a rank.
-/

namespace LogLinear.Histogram

/-- The percentile 0 is the minimum. The percentile 100 is the maximum if and only if the values below
the highest cell do not reach the rank that it asks for; otherwise they hide the highest values. Up to
`2 ^ 52` values this does not happen, as the rank is the total then. -/
theorem percentile_extremes_of_reachable {histogram : Histogram} (reachable : histogram.Reachable)
    (recorded : 0 < histogram.total) :
    histogram.percentile 0.0 = .ok histogram.minimum ∧
    (histogram.percentile 100.0 = .ok histogram.maximum ↔
      histogram.belowHighest < rankOfHundred histogram.total) ∧
    (histogram.total ≤ 2 ^ 52 → histogram.percentile 100.0 = .ok histogram.maximum) := by
  have sound := sound_of_reachable reachable
  have zeroValid : (0.0 : Float) ≤ 0.0 ∧ (0.0 : Float) ≤ 100.0 := by decide +kernel
  have hundredValid : (0.0 : Float) ≤ 100.0 ∧ (100.0 : Float) ≤ 100.0 := by decide +kernel
  have zero : ((0.0 : Float) == 0.0) = true := by decide +kernel
  have notZero : ((100.0 : Float) == 0.0) = false := by decide +kernel
  have isRank := rank_hundred recorded sound.total_le
  have greatest : histogram.percentile 100.0 = .ok histogram.maximum ↔
      histogram.belowHighest < rankOfHundred histogram.total := by
    rw [percentile_eq hundredValid recorded, notZero, Except.ok.injEq,
      reported_eq_maximum_iff sound recorded (one_le_rank _ _), isRank]
  refine ⟨?_, greatest, ?_⟩
  · rw [percentile_eq zeroValid recorded, zero, rank_of_zero zero sound.total_le,
      reported_one_eq_minimum sound recorded]
  · intro few
    rw [greatest, rankOfHundred, if_pos few]
    exact belowHighest_lt sound recorded

theorem sample_percentile_extremes :
    (sample.Reachable ∧ 0 < sample.total ∧ sample.total ≤ 2 ^ 52) ∧
      sample.percentile 0.0 = .ok 2 ∧ sample.percentile 100.0 = .ok 7 := by
  have recorded : 0 < sample.total := by decide +kernel
  have few : sample.total ≤ 2 ^ 52 := by decide +kernel
  have minimum : sample.minimum = 2 := by decide +kernel
  have maximum : sample.maximum = 7 := by decide +kernel
  obtain ⟨least, -, greatest⟩ := percentile_extremes_of_reachable sample_reachable recorded
  rw [minimum] at least
  rw [maximum] at greatest
  exact ⟨⟨sample_reachable, recorded, few⟩, least, greatest few⟩

/-- The value 0, recorded a number of times. -/
def zeros (count : Nat) : Histogram := kept (empty .dyadic) ((empty .dyadic).recordMany 0 count)

/-- The value 0, recorded `2 ^ 52` times, and the value 2, recorded once. -/
def outweighed : Histogram := kept (zeros (2 ^ 52)) ((zeros (2 ^ 52)).record 2)

theorem outweighed_reachable : outweighed.Reachable :=
  .recorded (.recordedMany (.empty _) 0 (2 ^ 52)) 2

/-- The percentile 100 asks for the last rank but one, which is that of a zero. -/
theorem outweighed_percentile_hundred :
    outweighed.Reachable ∧ 0 < outweighed.total ∧ outweighed.maximum = 3 ∧
      outweighed.percentile 100.0 = .ok 0 := by
  have recorded : 0 < outweighed.total := by decide +kernel
  have maximum : outweighed.maximum = 3 := by decide +kernel
  have hidden : outweighed.percentile 100.0 = .ok 0 := by decide +kernel
  exact ⟨outweighed_reachable, recorded, maximum, hidden⟩

end LogLinear.Histogram
