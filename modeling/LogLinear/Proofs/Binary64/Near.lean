import LogLinear.Proofs.Binary64.Nearest

/-!
Contract: numbers that are off by a small part of what they stand for.

Owns:
- nearness as a bound on the relative error;
- errors that follow on each other, and what factors and quotients make of them;
- the error of rounding.

Does not own: which errors come together. `LogLinear.Proofs.Ticks.Level` has that.
-/

namespace LogLinear.Binary64

/-- A number is off a target by at most a part of the target. -/
def Near (part target number : ℝ) : Prop := |number - target| ≤ part * target

variable {part target number : ℝ}

/-- Above the least exponents, rounding has an error of half a last place at most. -/
theorem near_nearest (normal : 2 ^ (-1022 : ℤ) ≤ number) :
    Near (1 / 2 ^ 53) number (nearest number) := by
  obtain ⟨low, high⟩ := nearest_bounds normal
  rw [Near, abs_le]
  constructor <;> linarith

namespace Near

theorem bounds (near : Near part target number) :
    target * (1 - part) ≤ number ∧ number ≤ target * (1 + part) := by
  obtain ⟨low, high⟩ := abs_le.mp near
  constructor <;> linarith

/-- The second error is a part of a number that has the first error already. -/
theorem trans {next sum final : ℝ} (first : Near part target number)
    (second : Near next number final) (nonneg : 0 ≤ target) (nextNonneg : 0 ≤ next)
    (enough : part + next * (1 + part) ≤ sum) : Near sum target final := by
  calc |final - target| ≤ |final - number| + |number - target| := abs_sub_le _ _ _
    _ ≤ next * number + part * target := add_le_add second first
    _ ≤ next * (target * (1 + part)) + part * target :=
        add_le_add_left (mul_le_mul_of_nonneg_left first.bounds.2 nextNonneg) _
    _ = (part + next * (1 + part)) * target := by ring
    _ ≤ sum * target := mul_le_mul_of_nonneg_right enough nonneg

theorem mul_left (near : Near part target number) {factor : ℝ} (nonneg : 0 ≤ factor) :
    Near part (factor * target) (factor * number) := by
  calc |factor * number - factor * target| = factor * |number - target| := by
        rw [← mul_sub, abs_mul, abs_of_nonneg nonneg]
    _ ≤ factor * (part * target) := mul_le_mul_of_nonneg_left near nonneg
    _ = part * (factor * target) := mul_left_comm _ _ _

theorem div_left (near : Near part target number) {dividend : ℝ} (nonneg : 0 ≤ dividend)
    (positive : 0 < target) (half : part ≤ 1 / 2) :
    Near (2 * part) (dividend / target) (dividend / number) := by
  have partNonneg : 0 ≤ part := nonneg_of_mul_nonneg_left ((abs_nonneg _).trans near) positive
  have low : target / 2 ≤ number := by
    have below : target * (1 / 2) ≤ target * (1 - part) :=
      mul_le_mul_of_nonneg_left (by linarith) positive.le
    linarith [near.bounds.1]
  have numberPositive : 0 < number := by linarith
  have error : |(target - number) / number| ≤ 2 * part := by
    rw [abs_div, abs_of_pos numberPositive, div_le_iff₀ numberPositive, abs_sub_comm]
    calc |number - target| ≤ part * target := near
      _ ≤ part * (2 * number) := mul_le_mul_of_nonneg_left (by linarith) partNonneg
      _ = 2 * part * number := by ring
  have split : dividend / number - dividend / target =
      (target - number) / number * (dividend / target) := by
    field_simp
  rw [Near, split, abs_mul, abs_of_nonneg (div_nonneg nonneg positive.le)]
  exact mul_le_mul_of_nonneg_right error (div_nonneg nonneg positive.le)

end Near

end LogLinear.Binary64
