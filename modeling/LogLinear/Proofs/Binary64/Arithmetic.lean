import LogLinear.Proofs.Binary64.Rounding
import LogLinear.Word

/-!
Contract: machine arithmetic as rounded real arithmetic.

Owns:
- products, quotients, sums and differences of numbers that are not below zero;
- words as machine numbers;
- the values of the constants that percentiles are computed with.

Each result is the rounding of the exact one, which is bounded so that nothing overflows.

Does not own: what is computed. `LogLinear.Proofs.Percent.Share` has percentages, and
`LogLinear.Proofs.Ticks.Following` has ticks.
-/

namespace LogLinear.Binary64

open Float.Model Float.Model.UnpackedFloat

/-! ### Unpacked operations -/

section Unpacked

variable {left right : UnpackedFloat} {leftValue rightValue : ℝ}

/-- The product of two significands has no bit below the last place of the product. -/
theorem mul_fits {significand other : ℕ} {exponent otherExponent : ℤ}
    (positive : 0 < significand) (otherPositive : 0 < other)
    (full : 2 ^ 52 ≤ significand ∨ exponent = -1074)
    (otherFull : 2 ^ 52 ≤ other ∨ otherExponent = -1074) :
    exponent + otherExponent ≤
      lastPlace ((significand * other : ℕ) * 2 ^ (exponent + otherExponent)) := by
  by_cases isFull : 2 ^ 52 ≤ significand * other
  · apply le_lastPlace
    rw [two_zpow_add, mul_comm]
    exact mul_le_mul_of_nonneg_right (by exact_mod_cast isFull) (two_zpow_pos _).le
  · have leftNarrow : ¬ 2 ^ 52 ≤ significand := by
      intro above
      exact isFull (above.trans (Nat.le_mul_of_pos_right _ otherPositive))
    have rightNarrow : ¬ 2 ^ 52 ≤ other := by
      intro above
      exact isFull (above.trans (Nat.le_mul_of_pos_left _ positive))
    have leftLowest := full.resolve_left leftNarrow
    have rightLowest := otherFull.resolve_left rightNarrow
    have lowest := lowest_le_lastPlace
      ((significand * other : ℕ) * 2 ^ (exponent + otherExponent))
    omega

theorem depicts_mul (leftDepicts : Depicts left leftValue)
    (rightDepicts : Depicts right rightValue)
    (bounded : nearest (leftValue * rightValue) < 2 ^ 1024) :
    Depicts (UnpackedFloat.mul Format.binary64 left right) (nearest (leftValue * rightValue)) := by
  cases leftDepicts with
  | zero sign =>
      rw [zero_mul, nearest_zero]
      cases rightDepicts with
      | zero => exact .zero _
      | finite => exact .zero _
  | @finite significand exponent positive _ lowest full =>
      cases rightDepicts with
      | zero =>
          rw [mul_zero, nearest_zero]
          exact .zero _
      | @finite other otherExponent otherPositive _ otherLowest otherFull =>
          have value : (significand : ℝ) * 2 ^ exponent * (other * 2 ^ otherExponent) =
              (significand * other : ℕ) * 2 ^ (exponent + otherExponent) := by
            rw [two_zpow_add]
            push_cast
            ring
          have fits := mul_fits positive otherPositive full otherFull
          have productPositive : (0 : ℝ) < (significand * other : ℕ) := by
            exact_mod_cast Nat.mul_pos positive otherPositive
          rw [value] at bounded ⊢
          exact depicts_roundWithAccuracy (tracks_exact _) productPositive fits bounded

/-- The dividend is shifted up to the exponent at which the quotient is taken. -/
theorem shifted_quotient {significand other shift : ℕ} {exponent otherExponent target : ℤ}
    (isShift : exponent - otherExponent - shift = target) :
    (significand : ℝ) * 2 ^ exponent / (other * 2 ^ otherExponent) =
      (significand <<< shift : ℕ) / other * 2 ^ target := by
  have raised := shiftLeft_value significand shift (exponent - otherExponent)
  rw [isShift] at raised
  calc (significand : ℝ) * 2 ^ exponent / (other * 2 ^ otherExponent)
      = significand * 2 ^ (exponent - otherExponent) / other := by
        rw [zpow_sub₀ two_ne_zero, mul_div_assoc', div_div, mul_comm (other : ℝ)]
    _ = (significand <<< shift : ℕ) * 2 ^ target / other := by rw [raised]
    _ = (significand <<< shift : ℕ) / other * 2 ^ target := mul_div_right_comm _ _ _

/-- The quotient is taken with enough bits: it is at least half of what the exponents promise. -/
theorem divCore_fits {significand other : ℕ} {exponent otherExponent : ℤ}
    (positive : 0 < significand) (otherPositive : 0 < other) :
    Format.binary64.targetExponent
        (totalExponent significand exponent - totalExponent other otherExponent) ≤
      lastPlace ((significand * 2 ^ exponent) / (other * 2 ^ otherExponent)) := by
  have low : (2 : ℝ) ^ significand.log2 ≤ significand := by
    exact_mod_cast Nat.log2_self_le positive.ne'
  have high : (other : ℝ) ≤ 2 ^ (other.log2 + 1) := by exact_mod_cast Nat.lt_log2_self.le
  have otherPositiveReal : (0 : ℝ) < other := by exact_mod_cast otherPositive
  apply max_le
  · apply le_lastPlace
    rw [le_div_iff₀ (mul_pos otherPositiveReal (two_zpow_pos _))]
    calc (2 : ℝ) ^ (totalExponent significand exponent - totalExponent other otherExponent -
            Format.binary64.mantissaBits + 52) * (other * 2 ^ otherExponent)
        ≤ (2 : ℝ) ^ (totalExponent significand exponent - totalExponent other otherExponent -
            Format.binary64.mantissaBits + 52) * (2 ^ (other.log2 + 1) * 2 ^ otherExponent) :=
          mul_le_mul_of_nonneg_left (mul_le_mul_of_nonneg_right high (two_zpow_pos _).le)
            (two_zpow_pos _).le
      _ = 2 ^ significand.log2 * 2 ^ exponent := by
          rw [← zpow_natCast, ← zpow_natCast, ← two_zpow_add, ← two_zpow_add, ← two_zpow_add]
          congr 1
          change (significand.log2 + 1 + exponent - (other.log2 + 1 + otherExponent) - 53 + 52 +
            ((other.log2 + 1 : ℕ) + otherExponent) : ℤ) = _
          push_cast
          ring
      _ ≤ significand * 2 ^ exponent := mul_le_mul_of_nonneg_right low (two_zpow_pos _).le
  · exact lowest_le_lastPlace _

theorem canonical_div (leftDepicts : Depicts left leftValue)
    (rightDepicts : Depicts right rightValue) (rightPositive : 0 < rightValue) :
    Canonical (UnpackedFloat.div Format.binary64 left right) (nearest (leftValue / rightValue)) := by
  cases rightDepicts with
  | zero => exact absurd rightPositive (lt_irrefl 0)
  | @finite other otherExponent otherPositive =>
      cases leftDepicts with
      | zero =>
          rw [zero_div, nearest_zero]
          exact .zero _
      | @finite significand exponent positive =>
          have otherPositiveReal : (0 : ℝ) < other := by exact_mod_cast otherPositive
          have fits := @divCore_fits significand other exponent otherExponent positive otherPositive
          unfold UnpackedFloat.div divCore
          dsimp only
          generalize isTarget : min (exponent - otherExponent) (Format.binary64.targetExponent
            (totalExponent significand exponent - totalExponent other otherExponent)) = target
          generalize isShift : (exponent - otherExponent - target).toNat = shift
          have value := @shifted_quotient significand other shift exponent otherExponent target
            (by omega)
          have shiftedPositive : (0 : ℝ) < (significand <<< shift : ℕ) / other := by
            rw [Nat.shiftLeft_eq]
            exact div_pos (by exact_mod_cast Nat.mul_pos positive (Nat.two_pow_pos shift))
              otherPositiveReal
          rw [value] at fits ⊢
          exact canonical_roundWithAccuracy (tracks_quotient _ otherPositive) shiftedPositive
            (by omega)

theorem depicts_div (leftDepicts : Depicts left leftValue)
    (rightDepicts : Depicts right rightValue) (rightPositive : 0 < rightValue)
    (bounded : nearest (leftValue / rightValue) < 2 ^ 1024) :
    Depicts (UnpackedFloat.div Format.binary64 left right) (nearest (leftValue / rightValue)) :=
  (canonical_div leftDepicts rightDepicts rightPositive).depicts bounded

theorem aligned_value {significand : ℕ} {exponent target : ℤ} (low : target ≤ exponent) :
    ((significand <<< (exponent - target).toNat : ℕ) : ℝ) * 2 ^ target =
      significand * 2 ^ exponent := by
  have raised := shiftLeft_value significand (exponent - target).toNat exponent
  rw [show exponent - (exponent - target).toNat = target by omega] at raised
  exact raised

theorem depicts_add (leftDepicts : Depicts left leftValue)
    (rightDepicts : Depicts right rightValue)
    (bounded : nearest (leftValue + rightValue) < 2 ^ 1024) :
    Depicts (UnpackedFloat.add Format.binary64 left right) (nearest (leftValue + rightValue)) := by
  cases leftDepicts with
  | zero sign =>
      rw [zero_add, rightDepicts.nearest_eq]
      cases rightDepicts with
      | zero otherSign =>
          change Depicts (if sign == otherSign then .zero sign else .zero .positive) 0
          split <;> exact .zero _
      | finite positive narrow lowest full highest =>
          exact .finite positive narrow lowest full highest
  | @finite significand exponent positive narrow lowest full highest =>
      cases rightDepicts with
      | zero otherSign =>
          rw [add_zero, nearest_eq_self narrow lowest]
          exact .finite positive narrow lowest full highest
      | @finite other otherExponent =>
          rw [← aligned_value (min_le_left exponent otherExponent),
            ← @aligned_value other _ _ (min_le_right exponent otherExponent), ← add_mul,
            ← Nat.cast_add] at bounded ⊢
          change Depicts (normalize Format.binary64
            ((significand <<< (exponent - min exponent otherExponent).toNat : ℕ) +
              (other <<< (otherExponent - min exponent otherExponent).toNat : ℕ) : ℤ)
            (min exponent otherExponent) .positive) _
          rw [← Nat.cast_add (R := ℤ)]
          exact depicts_normalize _ _ bounded

theorem depicts_sub (leftDepicts : Depicts left leftValue)
    (rightDepicts : Depicts right rightValue) (ordered : rightValue ≤ leftValue)
    (bounded : nearest (leftValue - rightValue) < 2 ^ 1024) :
    Depicts (UnpackedFloat.sub Format.binary64 left right) (nearest (leftValue - rightValue)) := by
  cases rightDepicts with
  | zero otherSign =>
      rw [sub_zero, leftDepicts.nearest_eq]
      cases leftDepicts with
      | zero sign =>
          change Depicts (if sign == -otherSign then .zero sign else .zero .positive) 0
          split <;> exact .zero _
      | finite positive narrow lowest full highest =>
          exact .finite positive narrow lowest full highest
  | @finite other otherExponent otherPositive =>
      cases leftDepicts with
      | zero sign =>
          have otherPositive : (0 : ℝ) < other * 2 ^ otherExponent :=
            mul_pos (by exact_mod_cast otherPositive) (two_zpow_pos _)
          exact absurd ordered otherPositive.not_ge
      | @finite significand exponent =>
          rw [← aligned_value (min_le_left exponent otherExponent),
            ← @aligned_value other _ _ (min_le_right exponent otherExponent)] at ordered bounded ⊢
          have less := le_of_mul_le_mul_right ordered (two_zpow_pos _)
          rw [Nat.cast_le] at less
          rw [← sub_mul, ← Nat.cast_sub less] at bounded ⊢
          change Depicts (normalize Format.binary64
            ((significand <<< (exponent - min exponent otherExponent).toNat : ℕ) -
              (other <<< (otherExponent - min exponent otherExponent).toNat : ℕ) : ℤ)
            (min exponent otherExponent) .positive) _
          rw [← Nat.cast_sub (R := ℤ) less]
          exact depicts_normalize _ _ bounded

end Unpacked

/-! ### Machine operations -/

section Machine

variable {left right : Float} {leftValue rightValue : ℝ}

theorem Denotes.mul (leftDenotes : Denotes left leftValue) (rightDenotes : Denotes right rightValue)
    {power : ℕ} (bounded : leftValue * rightValue ≤ 2 ^ power) (small : power ≤ 1023) :
    Denotes (left * right) (nearest (leftValue * rightValue)) :=
  (depicts_mul leftDenotes rightDenotes
    (nearest_lt_of_le (mul_nonneg leftDenotes.nonneg rightDenotes.nonneg) bounded small)).denotes

theorem Denotes.div (leftDenotes : Denotes left leftValue) (rightDenotes : Denotes right rightValue)
    (rightPositive : 0 < rightValue) {power : ℕ} (bounded : leftValue / rightValue ≤ 2 ^ power)
    (small : power ≤ 1023) :
    Denotes (left / right) (nearest (leftValue / rightValue)) :=
  (depicts_div leftDenotes rightDenotes rightPositive
    (nearest_lt_of_le (div_nonneg leftDenotes.nonneg rightPositive.le) bounded small)).denotes

theorem Denotes.add (leftDenotes : Denotes left leftValue) (rightDenotes : Denotes right rightValue)
    {power : ℕ} (bounded : leftValue + rightValue ≤ 2 ^ power) (small : power ≤ 1023) :
    Denotes (left + right) (nearest (leftValue + rightValue)) :=
  (depicts_add leftDenotes rightDenotes
    (nearest_lt_of_le (add_nonneg leftDenotes.nonneg rightDenotes.nonneg) bounded small)).denotes

theorem Denotes.sub (leftDenotes : Denotes left leftValue) (rightDenotes : Denotes right rightValue)
    (ordered : rightValue ≤ leftValue) {power : ℕ} (bounded : leftValue - rightValue ≤ 2 ^ power)
    (small : power ≤ 1023) :
    Denotes (left - right) (nearest (leftValue - rightValue)) :=
  (depicts_sub leftDenotes rightDenotes ordered
    (nearest_lt_of_le (sub_nonneg.mpr ordered) bounded small)).denotes

end Machine

/-! ### Words -/

section Words

variable {word : ℕ}

theorem cast_le_of_word (inside : word ≤ Word.max) : (word : ℝ) ≤ 2 ^ 64 := by
  exact_mod_cast inside.trans (show Word.max ≤ 2 ^ 64 by decide)

theorem nearest_le_of_word (inside : word ≤ Word.max) : nearest word ≤ 2 ^ 64 :=
  nearest_le_two_pow word.cast_nonneg (cast_le_of_word inside)

theorem denotes_toFloat (inside : word ≤ Word.max) :
    Denotes (Word.toFloat word) (nearest word) := by
  have toNat : word.toUInt64.toNat = word := Nat.mod_eq_of_lt (Nat.lt_succ_of_le inside)
  have bounded : nearest word < 2 ^ 1024 :=
    nearest_lt_of_le word.cast_nonneg (cast_le_of_word inside) (by decide)
  have depicts := depicts_normalize word 0 (by
    rw [zpow_zero, mul_one]
    exact bounded)
  rw [zpow_zero, mul_one] at depicts
  change Denotes (Float.ofModel (Float.Model.pack (UnpackedFloat.normalize Format.binary64
    (word.toUInt64.toNat : ℤ) 0 .positive))) _
  rw [toNat]
  exact depicts.denotes

end Words

/-! ### Constants -/

theorem denotes_zero : Denotes 0.0 0 := .zero .positive

/-- Both zeros are equal to zero, and no other number is. -/
theorem denotes_zero_of_beq {number : Float} (isZero : (number == 0.0) = true) :
    Denotes number 0 := by
  change (number.toModel.unpack.compare (.zero .positive) == some .eq) = true at isZero
  unfold Denotes
  cases isUnpacked : number.toModel.unpack with
  | zero sign => exact .zero sign
  | notANumber =>
      rw [isUnpacked] at isZero
      cases isZero
  | infinity sign =>
      rw [isUnpacked] at isZero
      cases sign <;> cases isZero
  | finite sign significand exponent positive =>
      rw [isUnpacked] at isZero
      cases sign <;> cases isZero

theorem denotes_one : Denotes 1.0 1 := by
  have value : (1 : ℝ) = (2 ^ 52 : ℕ) * 2 ^ (-52 : ℤ) := by norm_num
  rw [value]
  exact Depicts.finite (show 0 < 2 ^ 52 by decide) (by norm_num) (by decide) (.inl le_rfl)
    (by decide)

theorem one_le_nearest {word : ℕ} (positive : 0 < word) : 1 ≤ nearest word :=
  denotes_one.le_nearest (by exact_mod_cast positive)

theorem denotes_two : Denotes 2.0 2 := by
  have value : (2 : ℝ) = (2 ^ 52 : ℕ) * 2 ^ (-51 : ℤ) := by norm_num
  rw [value]
  exact Depicts.finite (show 0 < 2 ^ 52 by decide) (by norm_num) (by decide) (.inl le_rfl)
    (by decide)

theorem denotes_hundred : Denotes 100.0 100 := by
  have value : (100 : ℝ) = (100 * 2 ^ 46 : ℕ) * 2 ^ (-46 : ℤ) := by norm_num
  rw [value]
  exact Depicts.finite (show 0 < 100 * 2 ^ 46 by decide) (by norm_num) (by decide)
    (.inl (by norm_num)) (by decide)

end LogLinear.Binary64
