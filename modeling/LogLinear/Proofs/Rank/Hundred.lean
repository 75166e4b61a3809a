import LogLinear.Proofs.Binary64.Whole
import LogLinear.Proofs.Percent.Whole

/-!
Contract: the rank that the percentile 100 asks for, which is not always the total.

Owns:
- the machine number that the total is multiplied by, the last one before 1;
- the rounded product, computed on whole numbers;
- the rank, which is the total as long as the total is at most `2 ^ 52`.

Does not own: the value at that rank. `LogLinear.Proofs.Rank.Extremes` has it.
-/

namespace LogLinear.Histogram

open Binary64

/-- The rank that the percentile 100 asks for.

The level is lowered to the number before it, and a hundredth of that is the number before 1. Its
product with a total comes out as the number before the one that is nearest to the total. For totals
of more than 52 bits that is a whole number. -/
def rankOfHundred (total : Nat) : Nat :=
  if total ≤ 2 ^ 52 then total
  else if significand total = 2 ^ 52 then (2 ^ 53 - 1) * 2 ^ (total.log2 - 53)
  else (significand total - 1) * 2 ^ (total.log2 - 52)

/-- The last machine number before 1. -/
noncomputable def beforeOne : ℝ := (2 ^ 53 - 1 : ℕ) * 2 ^ (-53 : ℤ)

theorem denotes_beforeOne :
    Denotes (Float.ofBits ((100.0 : Float).toBits - 1) / 100.0) beforeOne :=
  Depicts.finite (show 0 < 2 ^ 53 - 1 by decide) (by norm_num) (by decide) (.inl (by norm_num))
    (by decide)

theorem beforeOne_eq : beforeOne = 1 - 1 / 2 ^ 53 := by
  rw [beforeOne]
  norm_num

variable {total : ℕ}

/-! ### The product -/

theorem nearest_product_of_power (positive : 0 < total) (power : significand total = 2 ^ 52) :
    nearest (beforeOne * nearest total) = (2 ^ 53 - 1 : ℕ) * 2 ^ ((total.log2 : ℤ) - 53) := by
  have product : beforeOne * nearest total = (2 ^ 53 - 1 : ℕ) * 2 ^ ((total.log2 : ℤ) - 53) := by
    have exponents : (2 : ℝ) ^ ((total.log2 : ℤ) - 53) =
        2 ^ (-53 : ℤ) * (2 ^ 52 * 2 ^ ((total.log2 : ℤ) - 52)) := by
      rw [← zpow_natCast, ← two_zpow_add, ← two_zpow_add]
      congr 1
      push_cast
      ring
    rw [beforeOne, nearest_natCast positive, power, exponents]
    push_cast
    ring
  rw [product]
  exact nearest_eq_self (by norm_num) (by omega)

/-- What is lost beside a unit of the last place is less than half a unit. -/
theorem nearestQuotient_beforeOne {significand : ℕ} (low : 2 ^ 52 < significand)
    (high : significand ≤ 2 ^ 53) :
    nearestQuotient ((2 ^ 53 - 1) * significand) (2 ^ 53) = significand - 1 := by
  unfold nearestQuotient
  dsimp only
  split_ifs <;> omega

theorem nearest_product_of_not_power (positive : 0 < total) (notPower : significand total ≠ 2 ^ 52) :
    nearest (beforeOne * nearest total) =
      (significand total - 1 : ℕ) * 2 ^ ((total.log2 : ℤ) - 52) := by
  obtain ⟨low, high⟩ := significand_bounds positive
  have above : 2 ^ 52 < significand total := low.lt_of_ne' notPower
  -- Two numbers of 53 bits have a product of 106, of which the lower 53 are rounded off.
  have product : beforeOne * nearest total =
      ((2 ^ 53 - 1) * significand total : ℕ) * 2 ^ ((total.log2 : ℤ) - 105) := by
    have exponents : (2 : ℝ) ^ ((total.log2 : ℤ) - 105) =
        2 ^ (-53 : ℤ) * 2 ^ ((total.log2 : ℤ) - 52) := by
      rw [← two_zpow_add]
      congr 1
      ring
    rw [beforeOne, nearest_natCast positive, exponents]
    push_cast
    ring
  have exponents : (2 : ℝ) ^ ((total.log2 : ℤ) - 52) = 2 ^ 53 * 2 ^ ((total.log2 : ℤ) - 105) := by
    rw [← zpow_natCast, ← two_zpow_add]
    congr 1
    push_cast
    ring
  rw [product, @nearest_whole _ _ 53 (by omega) (by omega) (by omega),
    nearestQuotient_beforeOne above high, exponents, mul_assoc]

/-- A total of at most `2 ^ 52` is less than half a unit above the product. -/
theorem ceil_product_of_le (small : total ≤ 2 ^ 52) (positive : 0 < total) :
    ⌈nearest (beforeOne * nearest total)⌉₊ = total := by
  have one : (1 : ℝ) ≤ total := by exact_mod_cast positive
  have bound : (total : ℝ) ≤ 2 ^ 52 := by exact_mod_cast small
  have exact : nearest total = total := nearest_natCast_eq_self (by omega)
  -- The number half a unit below the total needs one more bit, so it is not rounded either.
  have half : nearest ((2 * total - 1 : ℕ) * 2 ^ (-1 : ℤ)) = (2 * total - 1 : ℕ) * 2 ^ (-1 : ℤ) :=
    nearest_eq_self (by omega) (by decide)
  have halfValue : ((2 * total - 1 : ℕ) : ℝ) * 2 ^ (-1 : ℤ) = total - 1 / 2 := by
    rw [Nat.cast_sub (by omega)]
    push_cast
    norm_num
    ring
  rw [halfValue] at half
  have low : total - 1 / 2 ≤ nearest (beforeOne * total) := by
    rw [← half]
    apply nearest_mono (by linarith)
    rw [beforeOne_eq]
    linarith
  have high : nearest (beforeOne * total) ≤ total := by
    calc nearest (beforeOne * total) ≤ nearest total := by
          apply nearest_mono
          · rw [beforeOne_eq]
            positivity
          · rw [beforeOne_eq]
            linarith
      _ = total := exact
  rw [exact, Nat.ceil_eq_iff positive.ne', Nat.cast_sub positive]
  constructor
  · push_cast
    linarith
  · exact high

/-! ### The rank -/

/-- A product that is a whole number is the rank itself. -/
theorem rank_of_whole {number exponent places : ℕ} (positive : 0 < number)
    (narrow : number < 2 ^ 53) (whole : places ≤ exponent) (small : exponent ≤ places + 11) :
    max 1 (Word.cap ⌈(number : ℝ) * 2 ^ ((exponent : ℤ) - places)⌉₊) =
      number * 2 ^ (exponent - places) := by
  have ceiling : ⌈(number : ℝ) * 2 ^ ((exponent : ℤ) - places)⌉₊ =
      number * 2 ^ (exponent - places) := by
    rw [← Nat.cast_sub whole, mul_two_zpow_natCast, Nat.ceil_natCast]
  have word : number * 2 ^ (exponent - places) ≤ Word.max := by
    calc number * 2 ^ (exponent - places) ≤ (2 ^ 53 - 1) * 2 ^ 11 :=
          Nat.mul_le_mul (Nat.le_sub_one_of_lt narrow)
            (Nat.pow_le_pow_right Nat.two_pos (by omega))
      _ ≤ Word.max := by decide
  rw [ceiling, Word.cap_of_le word]
  exact max_eq_right (Nat.mul_pos positive (Nat.two_pow_pos _))

theorem significand_of_log2_eq (log : total.log2 = 52) : significand total = total := by
  unfold significand nearestQuotient
  simp [log, Nat.mod_one]

theorem rank_hundred (positive : 0 < total) (word : total ≤ Word.max) :
    rank 100.0 total = rankOfHundred total := by
  have above : (0.0 : Float) < 100.0 := by
    rw [denotes_zero.lt_iff denotes_hundred]
    norm_num
  have bounded : beforeOne * nearest total ≤ 2 ^ 64 := by
    have factor : beforeOne ≤ 1 := by
      rw [beforeOne_eq]
      norm_num
    exact (mul_le_of_le_one_left (nearest_nonneg _) factor).trans (nearest_le_of_word word)
  have product := denotes_beforeOne.mul (denotes_toFloat word) bounded (by decide)
  have last : total.log2 ≤ 63 :=
    Nat.le_of_lt_succ ((Nat.log2_lt positive.ne').mpr (Nat.lt_succ_of_le word))
  obtain ⟨low, high⟩ := significand_bounds positive
  rw [rank, if_pos above, roundUp_eq product]
  unfold rankOfHundred
  split_ifs with small power
  · rw [ceil_product_of_le small positive, Word.cap_of_le word, max_eq_right positive]
  · have log : 52 ≤ total.log2 := (Nat.le_log2 positive.ne').mpr (by omega)
    have notExact : total.log2 ≠ 52 := by
      intro exact
      rw [significand_of_log2_eq exact] at power
      exact small power.le
    rw [nearest_product_of_power positive power]
    exact @rank_of_whole _ _ 53 (by decide) (by decide) (by omega) (by omega)
  · have log : 52 ≤ total.log2 := (Nat.le_log2 positive.ne').mpr (by omega)
    rw [nearest_product_of_not_power positive power]
    exact @rank_of_whole _ _ 52 (by omega) (by omega) log (by omega)

end LogLinear.Histogram
