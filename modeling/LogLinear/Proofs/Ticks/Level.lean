import LogLinear.Proofs.Cell.Range
import LogLinear.Proofs.Ticks.Progress

/-!
Contract: the levels of the ticks, if the logarithm and the power are accurate.

Each tick covers the same share of the rest of the scale, which is half of the rest divided by the
number of ticks to a half. The rest shrinks from tick to tick, and the distance of the ticks with
it.

Owns:
- the real levels;
- the step from a tick to the next one, as near as the functions and the last places allow;
- the level after any number of ticks, which has a relative error of a millionth at most. A step
  covers a share of the rest, and its error is a far smaller part of that share, so the level gains
  more than the error does.

Does not own: the part of the rest that several ticks cover. `LogLinear.Proofs.Ticks.Halving` has
it.
-/

namespace LogLinear.Ticks

open Binary64

/-! ### Real levels -/

/-- The level after some ticks of which each covers its share of the rest exactly. -/
noncomputable def level (perHalf number : ℕ) : ℝ := 100 * (1 - (1 - 1 / (2 * perHalf)) ^ number)

theorem level_zero (perHalf : ℕ) : level perHalf 0 = 0 := by
  rw [level, pow_zero, sub_self, mul_zero]

theorem level_succ (perHalf number : ℕ) :
    level perHalf (number + 1) =
      level perHalf number + (100 - level perHalf number) * (1 / (2 * perHalf)) := by
  rw [level, level, pow_succ]
  ring

theorem share_le_half {perHalf : ℕ} (positive : 0 < perHalf) :
    1 / (2 * (perHalf : ℝ)) ≤ 1 / 2 := by
  have one : (1 : ℝ) ≤ perHalf := by exact_mod_cast positive
  exact one_div_le_one_div_of_le two_pos (by linarith)

/-- One step keeps the relative error of a level, if its own error and the last place are small
against the part of the scale that it covers. -/
theorem near_advanced {target value step next share : ℝ} (near : Near (1 / 10 ^ 6) target value)
    (nonneg : 0 ≤ value) (shareLow : 1 / 2 ^ 33 ≤ share)
    (shareHigh : share ≤ 1 / 2) (stepNear : Near (1 / 2 ^ 25) ((100 - value) * share) step)
    (nextNear : |next - (value + step)| ≤ 101 / 2 ^ 53) :
    Near (1 / 10 ^ 6) (target + (100 - target) * share) next := by
  have split : next - (target + (100 - target) * share) =
      (next - (value + step)) + (step - (100 - value) * share) +
        (value - target) * (1 - share) := by
    ring
  -- Shares are not below `1 / 2 ^ 33`, so the last place is a small part of the share.
  have place : (101 : ℝ) / 2 ^ 53 ≤ 101 / 2 ^ 20 * share := by linarith
  have stepError : |step - (100 - value) * share| ≤ 100 / 2 ^ 25 * share := by
    have part : (100 - value) * share ≤ 100 * share :=
      mul_le_mul_of_nonneg_right (by linarith) (by linarith)
    calc |step - (100 - value) * share| ≤ 1 / 2 ^ 25 * ((100 - value) * share) := stepNear
      _ ≤ 100 / 2 ^ 25 * share := by linarith
  have kept : |(value - target) * (1 - share)| ≤ 1 / 10 ^ 6 * target * (1 - share) := by
    rw [abs_mul, abs_of_nonneg (by linarith : 0 ≤ 1 - share)]
    exact mul_le_mul_of_nonneg_right near (by linarith)
  calc |next - (target + (100 - target) * share)|
      ≤ |next - (value + step)| + |step - (100 - value) * share| +
          |(value - target) * (1 - share)| := by
        rw [split]
        exact abs_add_three _ _ _
    _ ≤ 101 / 2 ^ 20 * share + 100 / 2 ^ 25 * share + 1 / 10 ^ 6 * target * (1 - share) :=
        add_le_add (add_le_add (nextNear.trans place) stepError) kept
    _ ≤ 1 / 10 ^ 6 * (target + (100 - target) * share) := by linarith

/-- Two to a power near a logarithm, which is taken one greater. -/
theorem near_two_rpow {number exponent error : ℝ} (positive : 0 < number)
    (close : |exponent - (Real.logb 2 number + 1)| ≤ error) (small : error ≤ 1) :
    Near (2 * error) (2 * number) (2 ^ exponent) := by
  generalize isRest : exponent - (Real.logb 2 number + 1) = rest at close
  have split : exponent = Real.logb 2 number + 1 + rest := by linarith
  have power : (2 : ℝ) ^ exponent = 2 * number * Real.exp (Real.log 2 * rest) := by
    rw [split, Real.rpow_add two_pos, Real.rpow_add two_pos,
      Real.rpow_logb two_pos (by norm_num) positive, Real.rpow_one,
      Real.rpow_def_of_pos two_pos rest, mul_comm number]
  have logLe : |Real.log 2 * rest| ≤ error := by
    have two : |Real.log 2| ≤ 1 := by
      rw [abs_of_nonneg (Real.log_nonneg one_le_two)]
      linarith [Real.log_two_lt_d9]
    rw [abs_mul]
    exact (mul_le_of_le_one_left (abs_nonneg _) two).trans close
  have factor : Near (2 * error) 1 (Real.exp (Real.log 2 * rest)) := by
    rw [Near, mul_one]
    exact (Real.abs_exp_sub_one_le (logLe.trans small)).trans (by linarith)
  have scaled := factor.mul_left (show 0 ≤ 2 * number by linarith)
  rw [mul_one] at scaled
  rw [power]
  exact scaled

/-! ### Steps -/

section Steps

variable {elementary : Elementary} (accurate : elementary.AccurateTo (1 / 2 ^ 40))
include accurate

theorem near_power {number : Float} {value : ℝ} (denotes : Denotes number value) (low : 1 ≤ value)
    (high : value ≤ 2 ^ 54) :
    ∃ power, Denotes (elementary.power 2.0 (elementary.ln number / elementary.ln 2.0 + 1.0)) power ∧
      Near (1 / 2 ^ 29) (2 * value) power := by
  obtain ⟨exponent, exponentDenotes, close, small⟩ :=
    denotes_exponent accurate (by norm_num) denotes low high
  obtain ⟨power, powerDenotes, powerNear⟩ := accurate.power exponentDenotes small
  have exact : Near (2 * (1 / 2 ^ 31)) (2 * value) (2 ^ exponent) :=
    near_two_rpow (by linarith) (close.trans (by norm_num)) (by norm_num)
  exact ⟨power, powerDenotes, exact.trans powerNear (by linarith) (by norm_num) (by norm_num)⟩

section Tick

variable {tick : Float} {value : ℝ} (denotes : Denotes tick value)
include denotes

/-- The power is twice the inverse of the share of the scale that is left. -/
theorem near_power_of_share (below : value < 100) :
    ∃ power,
      Denotes (elementary.power 2.0
        (elementary.ln (100.0 / (100.0 - tick)) / elementary.ln 2.0 + 1.0)) power ∧
      Near (1 / 2 ^ 28) (2 * (100 / (100 - value))) power ∧ 1 ≤ power ∧ power ≤ 2 ^ 58 := by
  obtain ⟨inverse, inverseDenotes, inverseLow, inverseHigh, inverseNear⟩ :=
    denotes_inverse_share denotes below
  obtain ⟨power, powerDenotes, powerNear⟩ :=
    near_power accurate inverseDenotes inverseLow inverseHigh
  obtain ⟨powerLow, powerHigh⟩ := powerNear.bounds
  have share : 0 ≤ 100 / (100 - value) := div_nonneg (by norm_num) (by linarith)
  refine ⟨power, powerDenotes, ?_, by linarith, by linarith⟩
  exact (inverseNear.mul_left two_pos.le).trans powerNear (by linarith) (by norm_num) (by norm_num)

variable {perHalf : ℕ} (positive : 0 < perHalf) (narrow : perHalf < 2 ^ 32)
include positive narrow

/-- Numbers of ticks are exact, so that the product is rounded only once. -/
theorem near_density (below : value < 100) :
    ∃ ticks, Denotes (density elementary perHalf tick) ticks ∧
      Near (1 / 2 ^ 27) (perHalf * (2 * (100 / (100 - value)))) ticks ∧ 1 ≤ ticks ∧
        ticks ≤ 2 ^ 90 := by
  obtain ⟨power, powerDenotes, powerNear, powerLow, powerHigh⟩ :=
    near_power_of_share accurate denotes below
  have one : (1 : ℝ) ≤ perHalf := by exact_mod_cast positive
  have word : perHalf ≤ Word.max := by
    rw [Word.max]
    omega
  have exact : nearest perHalf = perHalf := nearest_natCast_eq_self (narrow.trans (by norm_num))
  have ticksDenotes := denotes_density_of_power word powerDenotes (by linarith)
  rw [exact] at ticksDenotes
  have productLow : 1 ≤ perHalf * power := one_le_mul_of_one_le_of_one_le one powerLow
  have productHigh : perHalf * power ≤ 2 ^ 90 := by
    calc perHalf * power ≤ 2 ^ 32 * 2 ^ 58 :=
          mul_le_mul (by exact_mod_cast narrow.le) powerHigh (by linarith) (by positivity)
      _ = 2 ^ 90 := by norm_num
  have target : 0 ≤ perHalf * (2 * (100 / (100 - value))) := by
    have rest : 0 ≤ 100 - value := sub_nonneg.mpr below.le
    positivity
  refine ⟨_, ticksDenotes, ?_, denotes_one.le_nearest productLow,
    nearest_le_two_pow (by linarith) productHigh⟩
  exact (powerNear.mul_left perHalf.cast_nonneg).trans
    (near_nearest (normal_of_le (by linarith))) target (by norm_num) (by norm_num)

/-- The next tick is on by a share of the rest. -/
theorem near_following (inside : value ≤ 100) :
    ∃ next step, Denotes (following elementary perHalf tick) next ∧ next ≤ 100 ∧
      Near (1 / 2 ^ 25) ((100 - value) * (1 / (2 * perHalf))) step ∧
        |next - (value + step)| ≤ 101 / 2 ^ 53 := by
  rcases inside.lt_or_eq with below | isHundred
  · obtain ⟨ticks, ticksDenotes, ticksNear, ticksLow, ticksHigh⟩ :=
      near_density accurate denotes positive narrow below
    have rest : 0 < 100 - value := sub_pos.mpr below
    have real : (0 : ℝ) < perHalf := Nat.cast_pos.mpr positive
    have quotientLow : 1 / 2 ^ 100 ≤ 100 / ticks := by
      rw [div_le_div_iff₀ (by norm_num) (by linarith)]
      linarith
    have quotientNear := ticksNear.div_left (show (0 : ℝ) ≤ 100 by norm_num) (by positivity)
      (by norm_num)
    have covered : 100 / (perHalf * (2 * (100 / (100 - value)))) =
        (100 - value) * (1 / (2 * perHalf)) := by
      field_simp
    rw [covered] at quotientNear
    have stepNear : Near (1 / 2 ^ 25) ((100 - value) * (1 / (2 * perHalf)))
        (nearest (100 / ticks)) :=
      quotientNear.trans (near_nearest (normal_of_le quotientLow)) (by positivity) (by norm_num)
        (by norm_num)
    have half : (100 - value) * (1 / (2 * perHalf)) ≤ (100 - value) * (1 / 2) :=
      mul_le_mul_of_nonneg_left (share_le_half positive) rest.le
    have sumHigh : value + nearest (100 / ticks) ≤ 100 := by linarith [stepNear.bounds.2]
    have sumNonneg : 0 ≤ value + nearest (100 / ticks) :=
      add_nonneg denotes.nonneg (nearest_nonneg _)
    refine ⟨_, _, denotes_following_of_lt denotes below ticksDenotes ticksLow sumHigh,
      denotes_hundred.nearest_le sumNonneg sumHigh, stepNear, ?_⟩
    exact (abs_nearest_sub_le_add_one sumNonneg).trans (by linarith)
  · rw [following_of_hundred denotes isHundred]
    refine ⟨value, 0, denotes, inside, ?_, ?_⟩
    · rw [isHundred, sub_self, zero_mul, Near, sub_self, abs_zero, mul_zero]
    · rw [add_zero, sub_self, abs_zero]
      norm_num

end Tick

end Steps

/-! ### Runs -/

section Runs

variable {elementary : Elementary} {perHalf : ℕ}

theorem near_nth (accurate : elementary.AccurateTo (1 / 2 ^ 40)) (positive : 0 < perHalf)
    (narrow : perHalf < 2 ^ 32) (number : ℕ) :
    ∃ value, Denotes (nth elementary perHalf number) value ∧ value ≤ 100 ∧
      Near (1 / 10 ^ 6) (level perHalf number) value := by
  -- The bound holds of each level relative to itself, so the errors of the steps do not add up.
  induction number with
  | zero =>
      refine ⟨0, denotes_zero, by norm_num, ?_⟩
      rw [level_zero, Near, sub_self, abs_zero, mul_zero]
  | succ number inductionHypothesis =>
      obtain ⟨value, denotes, inside, near⟩ := inductionHypothesis
      obtain ⟨next, step, nextDenotes, nextInside, stepNear, nextNear⟩ :=
        near_following accurate denotes positive narrow inside
      have shareLow : 1 / 2 ^ 33 ≤ 1 / (2 * (perHalf : ℝ)) := by
        have real : (perHalf : ℝ) ≤ 2 ^ 32 := by exact_mod_cast narrow.le
        have width : (0 : ℝ) < perHalf := Nat.cast_pos.mpr positive
        exact one_div_le_one_div_of_le (by positivity) (by linarith)
      refine ⟨next, nextDenotes, nextInside, ?_⟩
      rw [level_succ]
      exact near_advanced near denotes.nonneg shareLow (share_le_half positive) stepNear nextNear

end Runs

end LogLinear.Ticks
