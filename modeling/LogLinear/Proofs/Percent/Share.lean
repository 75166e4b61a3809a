import LogLinear.Histogram.Percentile
import LogLinear.Proofs.Binary64.Arithmetic

/-!
Contract: the percentage that a count is of a total, as it comes out of two rounded operations.

Owns:
- the real number that the computed percentage stands for;
- its monotonicity in the count, and how little it exceeds the percentage that is not rounded.

Does not own: the percentage of the total itself. `LogLinear.Proofs.Percent.Whole` has it.
-/

namespace LogLinear.Histogram

open Binary64

/-- The computed percentage of a count as a real number. -/
noncomputable def share (count total : ℕ) : ℝ :=
  nearest (nearest (100 * nearest count) / nearest total)

variable {count total : ℕ}

theorem share_mono {low high : ℕ} (ordered : low ≤ high) (positive : 0 < total) :
    share low total ≤ share high total := by
  have totalPositive : 0 < nearest total := one_pos.trans_le (one_le_nearest positive)
  have counts : nearest low ≤ nearest high :=
    nearest_mono low.cast_nonneg (by exact_mod_cast ordered)
  have hundredfolds : nearest (100 * nearest low) ≤ nearest (100 * nearest high) :=
    nearest_mono (mul_nonneg (by norm_num) (nearest_nonneg _))
      (mul_le_mul_of_nonneg_left counts (by norm_num))
  exact nearest_mono (div_nonneg (nearest_nonneg _) totalPositive.le)
    (div_le_div_of_nonneg_right hundredfolds totalPositive.le)

/-- Rounding adds little to the percentage. -/
theorem share_le (inside : count ≤ total) (positive : 0 < total) :
    share count total ≤ 100 * (count / total) + 1 / 2 ^ 44 := by
  rcases count.eq_zero_or_pos with isZero | countPositive
  · rw [share, isZero, Nat.cast_zero, nearest_zero, mul_zero, nearest_zero, zero_div, nearest_zero]
    positivity
  · have one : (1 : ℝ) ≤ count := by exact_mod_cast countPositive
    have ordered : (count : ℝ) ≤ total := by exact_mod_cast inside
    have countNormal : 1 / 2 ^ 100 ≤ (count : ℝ) := by linarith
    have totalNormal : 1 / 2 ^ 100 ≤ (total : ℝ) := by linarith
    obtain ⟨countLow, countHigh⟩ := nearest_bounds (normal_of_le countNormal)
    obtain ⟨totalLow, -⟩ := nearest_bounds (normal_of_le totalNormal)
    have productNormal : 1 / 2 ^ 100 ≤ 100 * nearest count := by linarith
    obtain ⟨-, productHigh⟩ := nearest_bounds (normal_of_le productNormal)
    have partLe : (count : ℝ) / total ≤ 1 := div_le_one_of_le₀ ordered (by linarith)
    have partNonneg : 0 ≤ (count : ℝ) / total := by positivity
    have whole : (count : ℝ) / total * total = count := div_mul_cancel₀ _ (by linarith)
    have quotient : nearest (100 * nearest count) / nearest total ≤
        100 * (count / total) * (1 + 1 / 2 ^ 51) := by
      have scaled : count * (1 - 1 / 2 ^ 53) ≤ count / total * nearest total := by
        calc count * (1 - 1 / 2 ^ 53) = (count : ℝ) / total * (total * (1 - 1 / 2 ^ 53)) := by
              rw [← mul_assoc, whole]
          _ ≤ count / total * nearest total := mul_le_mul_of_nonneg_left totalLow partNonneg
      rw [div_le_iff₀ (by linarith)]
      linarith
    have quotientNonneg : 0 ≤ nearest (100 * nearest count) / nearest total :=
      div_nonneg (nearest_nonneg _) (nearest_nonneg _)
    obtain ⟨-, high⟩ := abs_le.mp (abs_nearest_sub_le_add_one quotientNonneg)
    rw [share]
    linarith

theorem denotes_percentOf (inside : count ≤ Word.max) (positive : 0 < total)
    (word : total ≤ Word.max) : Denotes (percentOf count total) (share count total) := by
  have countBound := nearest_le_of_word inside
  have totalBound := one_le_nearest positive
  have hundredfoldBound : 100 * nearest count ≤ 2 ^ 71 := by
    calc 100 * nearest count ≤ 100 * 2 ^ 64 := mul_le_mul_of_nonneg_left countBound (by norm_num)
      _ ≤ 2 ^ 71 := by norm_num
  have hundredfold : Denotes (100.0 * Word.toFloat count) (nearest (100 * nearest count)) :=
    denotes_hundred.mul (denotes_toFloat inside) hundredfoldBound (by decide)
  have quotientBound : nearest (100 * nearest count) / nearest total ≤ 2 ^ 71 := by
    calc nearest (100 * nearest count) / nearest total
        ≤ nearest (100 * nearest count) := div_le_self (nearest_nonneg _) totalBound
      _ ≤ 2 ^ 71 :=
          nearest_le_two_pow (mul_nonneg (by norm_num) (nearest_nonneg _)) hundredfoldBound
  have totalPositive : 0 < nearest total := one_pos.trans_le totalBound
  exact hundredfold.div (denotes_toFloat word) totalPositive quotientBound (by decide)

end LogLinear.Histogram
