import LogLinear.Proofs.Binary64.HalfEven
import Mathlib.Data.Int.Log
import Mathlib.Tactic.Ring

/-!
Contract: rounding of real numbers to binary64 precision.

Owns:
- the exponent of the last place that binary64 numbers have near a number;
- the rounding to that place, which fixes what has at most 53 significant bits, and its
  monotonicity and error.

Numbers below zero are left out, and exponents have no upper end here.

Does not own: the numbers that the machine holds. `LogLinear.Proofs.Binary64.Denotes` has them.
-/

namespace LogLinear.Binary64

/-- The exponent of the last place near a number. Numbers have 53 bits, or fewer once the least
exponent is reached. -/
noncomputable def lastPlace (number : ℝ) : ℤ := max (Int.log 2 number - 52) (-1074)

/-- A number rounded to its last place. -/
noncomputable def nearest (number : ℝ) : ℝ :=
  halfEven (number / 2 ^ lastPlace number) * 2 ^ lastPlace number

variable {number : ℝ} {exponent : ℤ}

theorem two_zpow_pos (exponent : ℤ) : (0 : ℝ) < 2 ^ exponent := zpow_pos two_pos exponent

theorem two_zpow_add (left right : ℤ) : (2 : ℝ) ^ (left + right) = 2 ^ left * 2 ^ right :=
  zpow_add₀ two_ne_zero left right

theorem two_zpow_le {low high : ℤ} (ordered : low ≤ high) : (2 : ℝ) ^ low ≤ 2 ^ high :=
  zpow_le_zpow_right₀ one_le_two ordered

theorem mul_two_zpow_natCast (significand shift : ℕ) :
    (significand : ℝ) * 2 ^ (shift : ℤ) = (significand * 2 ^ shift : ℕ) := by
  rw [zpow_natCast]
  push_cast
  rfl

/-! ### The last place -/

theorem lowest_le_lastPlace (number : ℝ) : -1074 ≤ lastPlace number := le_max_right _ _

theorem lt_two_zpow_lastPlace (number : ℝ) : number < 2 ^ (lastPlace number + 53) := by
  have bound := Int.lt_zpow_succ_log_self Nat.one_lt_two number
  rw [Nat.cast_ofNat] at bound
  have exponents : Int.log 2 number + 1 ≤ lastPlace number + 53 := by
    have := le_max_left (Int.log 2 number - 52) (-1074)
    unfold lastPlace
    omega
  exact bound.trans_le (two_zpow_le exponents)

theorem two_zpow_lastPlace_le (positive : 0 < number) (raised : -1074 < lastPlace number) :
    2 ^ (lastPlace number + 52) ≤ number := by
  have bound := Int.zpow_log_le_self Nat.one_lt_two positive
  rw [Nat.cast_ofNat] at bound
  have exponents : lastPlace number + 52 ≤ Int.log 2 number := by
    unfold lastPlace at raised ⊢
    omega
  exact (two_zpow_le exponents).trans bound

theorem lastPlace_le (positive : 0 < number) (below : number < 2 ^ (exponent + 53))
    (lowest : -1074 ≤ exponent) : lastPlace number ≤ exponent := by
  have log : Int.log 2 number < exponent + 53 := by
    rw [← Int.lt_zpow_iff_log_lt Nat.one_lt_two positive, Nat.cast_ofNat]
    exact below
  exact max_le (by omega) lowest

theorem le_lastPlace (above : 2 ^ (exponent + 52) ≤ number) : exponent ≤ lastPlace number := by
  have positive : 0 < number := (two_zpow_pos _).trans_le above
  have log : exponent + 52 ≤ Int.log 2 number := by
    rw [← Int.zpow_le_iff_le_log Nat.one_lt_two positive, Nat.cast_ofNat]
    exact above
  exact le_max_of_le_left (by omega)

theorem lastPlace_eq (low : 2 ^ (exponent + 52) ≤ number) (high : number < 2 ^ (exponent + 53))
    (lowest : -1074 ≤ exponent) : lastPlace number = exponent :=
  le_antisymm (lastPlace_le ((two_zpow_pos _).trans_le low) high lowest) (le_lastPlace low)

theorem lastPlace_near_hundred (low : 64 ≤ number) (high : number < 128) :
    lastPlace number = -46 := by
  have lowPower : (2 : ℝ) ^ (-46 + 52 : ℤ) = 64 := by norm_num
  have highPower : (2 : ℝ) ^ (-46 + 53 : ℤ) = 128 := by norm_num
  exact lastPlace_eq (lowPower ▸ low) (highPower ▸ high) (by decide)

theorem lastPlace_mono {small large : ℝ} (positive : 0 < small) (ordered : small ≤ large) :
    lastPlace small ≤ lastPlace large :=
  max_le_max (Int.sub_le_sub_right (Int.log_mono_right positive ordered) 52) le_rfl

/-! ### The significand -/

theorem significand_lt (number : ℝ) : number / 2 ^ lastPlace number < 2 ^ 53 := by
  have bound := lt_two_zpow_lastPlace number
  rw [two_zpow_add, mul_comm] at bound
  exact (div_lt_iff₀ (two_zpow_pos _)).mpr bound

theorem le_significand (positive : 0 < number) (raised : -1074 < lastPlace number) :
    2 ^ 52 ≤ number / 2 ^ lastPlace number := by
  have bound := two_zpow_lastPlace_le positive raised
  rw [two_zpow_add, mul_comm] at bound
  exact (le_div_iff₀ (two_zpow_pos _)).mpr bound

theorem halfEven_significand_le (nonneg : 0 ≤ number) :
    halfEven (number / 2 ^ lastPlace number) ≤ 2 ^ 53 := by
  have mono := halfEven_mono (div_nonneg nonneg (two_zpow_pos _).le) (significand_lt number).le
  have whole : halfEven ((2 : ℝ) ^ 53) = 2 ^ 53 := by
    exact_mod_cast halfEven_natCast (2 ^ 53)
  exact whole ▸ mono

theorem le_halfEven_significand (positive : 0 < number) (raised : -1074 < lastPlace number) :
    2 ^ 52 ≤ halfEven (number / 2 ^ lastPlace number) := by
  have mono := halfEven_mono (by positivity) (le_significand positive raised)
  have whole : halfEven ((2 : ℝ) ^ 52) = 2 ^ 52 := by
    exact_mod_cast halfEven_natCast (2 ^ 52)
  exact whole ▸ mono

/-! ### Rounding -/

@[simp]
theorem nearest_zero : nearest 0 = 0 := by
  simp [nearest]

theorem nearest_nonneg (number : ℝ) : 0 ≤ nearest number :=
  mul_nonneg (Nat.cast_nonneg _) (two_zpow_pos _).le

theorem nearest_eq_self {significand : ℕ} (narrow : significand < 2 ^ 53)
    (lowest : -1074 ≤ exponent) :
    nearest (significand * 2 ^ exponent) = significand * 2 ^ exponent := by
  rcases significand.eq_zero_or_pos with isZero | positive
  · rw [isZero, Nat.cast_zero, zero_mul, nearest_zero]
  · generalize isNumber : (significand : ℝ) * 2 ^ exponent = number
    have positiveNumber : 0 < number := by
      rw [← isNumber]
      exact mul_pos (by exact_mod_cast positive) (two_zpow_pos _)
    have below : number < 2 ^ (exponent + 53) := by
      rw [← isNumber, two_zpow_add, mul_comm]
      exact mul_lt_mul_of_pos_left (by exact_mod_cast narrow) (two_zpow_pos _)
    obtain ⟨shift, isShift⟩ := Int.le.dest (lastPlace_le positiveNumber below lowest)
    have whole : number / 2 ^ lastPlace number = (significand * 2 ^ shift : ℕ) := by
      rw [div_eq_iff (two_zpow_pos _).ne']
      calc number = significand * 2 ^ (lastPlace number + shift) := by rw [isShift, isNumber]
        _ = (significand * 2 ^ shift : ℕ) * 2 ^ lastPlace number := by
            rw [two_zpow_add, zpow_natCast]
            push_cast
            ring
    rw [nearest, whole, halfEven_natCast, ← whole, div_mul_cancel₀ _ (two_zpow_pos _).ne']

theorem nearest_natCast_eq_self {number : ℕ} (narrow : number < 2 ^ 53) :
    nearest number = number := by
  have fixed := @nearest_eq_self 0 number narrow (by decide)
  rwa [zpow_zero, mul_one] at fixed

@[simp]
theorem nearest_nearest (nonneg : 0 ≤ number) : nearest (nearest number) = nearest number := by
  have place := lowest_le_lastPlace number
  rcases (halfEven_significand_le nonneg).lt_or_eq with narrow | carried
  · exact nearest_eq_self narrow place
  · have value : nearest number = (2 ^ 52 : ℕ) * 2 ^ (lastPlace number + 1) := by
      rw [nearest, carried, two_zpow_add, zpow_one]
      push_cast
      ring
    rw [value]
    exact nearest_eq_self (by norm_num) (by omega)

/-- A whole number that has some bits too many, at some exponent. -/
theorem nearest_whole {whole excess : ℕ} (low : 2 ^ (52 + excess) ≤ whole)
    (high : whole < 2 ^ (53 + excess)) (lowest : -1074 ≤ exponent + excess) :
    nearest (whole * 2 ^ exponent) =
      nearestQuotient whole (2 ^ excess) * 2 ^ excess * 2 ^ exponent := by
  have lowReal : (2 : ℝ) ^ (52 + excess) ≤ whole := by exact_mod_cast low
  have highReal : (whole : ℝ) < 2 ^ (53 + excess) := by exact_mod_cast high
  have place : lastPlace (whole * 2 ^ exponent) = exponent + excess := by
    refine lastPlace_eq ?_ ?_ lowest
    · calc (2 : ℝ) ^ (exponent + excess + 52) = 2 ^ (52 + excess) * 2 ^ exponent := by
            rw [← zpow_natCast, ← two_zpow_add]
            congr 1
            push_cast
            ring
        _ ≤ whole * 2 ^ exponent := mul_le_mul_of_nonneg_right lowReal (two_zpow_pos _).le
    · calc (whole : ℝ) * 2 ^ exponent < 2 ^ (53 + excess) * 2 ^ exponent :=
            mul_lt_mul_of_pos_right highReal (two_zpow_pos _)
        _ = (2 : ℝ) ^ (exponent + excess + 53) := by
            rw [← zpow_natCast, ← two_zpow_add]
            congr 1
            push_cast
            ring
  have quotient : (whole : ℝ) * 2 ^ exponent / 2 ^ (exponent + excess) =
      whole / (2 ^ excess : ℕ) := by
    rw [two_zpow_add, zpow_natCast, mul_comm ((2 : ℝ) ^ exponent),
      mul_div_mul_right _ _ (two_zpow_pos _).ne']
    push_cast
    rfl
  rw [nearest, place, quotient, halfEven_div _ (Nat.two_pow_pos _), two_zpow_add, zpow_natCast]
  ring

/-- Numbers with different last places are kept apart by the power of two between them, which is
fixed. -/
theorem nearest_mono {small large : ℝ} (nonneg : 0 ≤ small) (ordered : small ≤ large) :
    nearest small ≤ nearest large := by
  rcases nonneg.eq_or_lt with isZero | positive
  · rw [← isZero, nearest_zero]
    exact nearest_nonneg large
  · rcases (lastPlace_mono positive ordered).lt_or_eq with apart | same
    · have largePositive : 0 < large := positive.trans_le ordered
      have raised : -1074 < lastPlace large := (lowest_le_lastPlace small).trans_lt apart
      have smallBound : (halfEven (small / 2 ^ lastPlace small) : ℝ) ≤ 2 ^ 53 := by
        exact_mod_cast halfEven_significand_le nonneg
      have largeBound : (2 : ℝ) ^ 52 ≤ halfEven (large / 2 ^ lastPlace large) := by
        exact_mod_cast le_halfEven_significand largePositive raised
      calc nearest small ≤ 2 ^ 53 * 2 ^ lastPlace small :=
            mul_le_mul_of_nonneg_right smallBound (two_zpow_pos _).le
        _ = 2 ^ 52 * 2 ^ (lastPlace small + 1) := by
            rw [two_zpow_add, zpow_one]
            ring
        _ ≤ 2 ^ 52 * 2 ^ lastPlace large :=
            mul_le_mul_of_nonneg_left (two_zpow_le apart) (by positivity)
        _ ≤ nearest large := mul_le_mul_of_nonneg_right largeBound (two_zpow_pos _).le
    · have quotients : small / 2 ^ lastPlace small ≤ large / 2 ^ lastPlace small :=
        div_le_div_of_nonneg_right ordered (two_zpow_pos _).le
      have significands : (halfEven (small / 2 ^ lastPlace small) : ℝ) ≤
          halfEven (large / 2 ^ lastPlace small) := by
        exact_mod_cast halfEven_mono (div_nonneg nonneg (two_zpow_pos _).le) quotients
      rw [nearest, nearest, ← same]
      exact mul_le_mul_of_nonneg_right significands (two_zpow_pos _).le

theorem nearest_le_two_pow {power : ℕ} (nonneg : 0 ≤ number) (bounded : number ≤ 2 ^ power) :
    nearest number ≤ 2 ^ power := by
  have fixed : nearest (2 ^ power) = 2 ^ power := by
    have isSelf := @nearest_eq_self power 1 (by decide) (by omega)
    rw [Nat.cast_one, one_mul, zpow_natCast] at isSelf
    exact isSelf
  exact fixed ▸ nearest_mono nonneg bounded

/-- Nothing overflows that is at most the greatest power of two. -/
theorem nearest_lt_of_le {power : ℕ} (nonneg : 0 ≤ number) (bounded : number ≤ 2 ^ power)
    (small : power ≤ 1023) : nearest number < 2 ^ 1024 := by
  calc nearest number ≤ 2 ^ power := nearest_le_two_pow nonneg bounded
    _ < 2 ^ 1024 := pow_lt_pow_right₀ one_lt_two (Nat.lt_succ_of_le small)

theorem abs_nearest_sub_le (nonneg : 0 ≤ number) :
    |nearest number - number| ≤ 2 ^ lastPlace number / 2 := by
  have error := abs_halfEven_sub_le (div_nonneg nonneg (two_zpow_pos (lastPlace number)).le)
  have split : nearest number - number =
      (halfEven (number / 2 ^ lastPlace number) - number / 2 ^ lastPlace number) *
        2 ^ lastPlace number := by
    rw [nearest, sub_mul, div_mul_cancel₀ _ (two_zpow_pos _).ne']
  calc |nearest number - number| ≤ 1 / 2 * 2 ^ lastPlace number := by
        rw [split, abs_mul, abs_of_pos (two_zpow_pos _)]
        exact mul_le_mul_of_nonneg_right error (two_zpow_pos _).le
    _ = 2 ^ lastPlace number / 2 := one_div_mul_eq_div _ _

theorem abs_nearest_sub_le_add_one (nonneg : 0 ≤ number) :
    |nearest number - number| ≤ (number + 1) / 2 ^ 53 := by
  rcases nonneg.eq_or_lt with isZero | positive
  · rw [← isZero, nearest_zero, sub_zero, abs_zero]
    positivity
  · have error := abs_nearest_sub_le nonneg
    rcases (lowest_le_lastPlace number).lt_or_eq with raised | lowest
    · have place : (2 : ℝ) ^ (lastPlace number + 52) ≤ number :=
        two_zpow_lastPlace_le positive raised
      have split : (2 : ℝ) ^ (lastPlace number + 52) = 2 ^ lastPlace number * 2 ^ 52 :=
        two_zpow_add _ 52
      linarith
    · have place : (2 : ℝ) ^ lastPlace number ≤ 2 ^ (-52 : ℤ) := two_zpow_le (by omega)
      have power : (2 : ℝ) ^ (-52 : ℤ) = 1 / 2 ^ 52 := by
        rw [zpow_neg, one_div]
        rfl
      rw [power] at place
      linarith

theorem normal_of_le (above : 1 / 2 ^ 100 ≤ number) : 2 ^ (-1022 : ℤ) ≤ number := by
  have power : (2 : ℝ) ^ (-100 : ℤ) = 1 / 2 ^ 100 := by
    rw [zpow_neg, one_div]
    rfl
  calc (2 : ℝ) ^ (-1022 : ℤ) ≤ 2 ^ (-100 : ℤ) := two_zpow_le (by decide)
    _ = 1 / 2 ^ 100 := power
    _ ≤ number := above

/-- Above the least exponents, rounding changes a number by a factor that is almost 1. -/
theorem nearest_bounds (normal : 2 ^ (-1022 : ℤ) ≤ number) :
    number * (1 - 1 / 2 ^ 53) ≤ nearest number ∧ nearest number ≤ number * (1 + 1 / 2 ^ 53) := by
  have positive : 0 < number := (two_zpow_pos _).trans_le normal
  have error := abs_le.mp (abs_nearest_sub_le positive.le)
  have place : (2 : ℝ) ^ lastPlace number * 2 ^ 52 ≤ number := by
    rcases (lowest_le_lastPlace number).lt_or_eq with raised | lowest
    · have bound := two_zpow_lastPlace_le positive raised
      rw [two_zpow_add] at bound
      exact bound
    · rw [← lowest]
      calc (2 : ℝ) ^ (-1074 : ℤ) * 2 ^ 52 = 2 ^ (-1022 : ℤ) := (two_zpow_add (-1074) 52).symm
        _ ≤ number := normal
  constructor <;> linarith [error.1, error.2]

end LogLinear.Binary64
