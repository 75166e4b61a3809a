import LogLinear.Proofs.Binary64.Denotes

/-!
Contract: the rounding of unpacked numbers, as the rounding of their values.

Owns:
- the exponent that unpacked arithmetic aims at, as the last place of the value;
- the shift to that exponent, and the second one when rounding carries over;
- the rounding of a whole part with its accuracy, and of a pair of significand and exponent.

Does not own: the operations that round their results.
-/

namespace LogLinear.Binary64

open Float.Model Float.Model.UnpackedFloat

variable {significand : ℕ} {exponent : ℤ} {accuracy : Accuracy} {number : ℝ}

theorem log_eq {power : ℤ} (low : 2 ^ power ≤ number) (high : number < 2 ^ (power + 1)) :
    Int.log 2 number = power := by
  have positive : 0 < number := (two_zpow_pos _).trans_le low
  have above : power ≤ Int.log 2 number := by
    rw [← Int.zpow_le_iff_le_log Nat.one_lt_two positive, Nat.cast_ofNat]
    exact low
  have below : Int.log 2 number < power + 1 := by
    rw [← Int.lt_zpow_iff_log_lt Nat.one_lt_two positive, Nat.cast_ofNat]
    exact high
  omega

theorem targetExponent_eq_max (significand : ℕ) (exponent : ℤ) :
    Format.binary64.targetExponent (totalExponent significand exponent) =
      max (significand.log2 + exponent - 52) (-1074) := by
  change max ((significand.log2 : ℤ) + 1 + exponent - 53) (-1074) = _
  congr 1
  omega

theorem targetExponent_eq (positive : 0 < significand) (low : significand ≤ number)
    (high : number < significand + 1) :
    Format.binary64.targetExponent (totalExponent significand exponent) =
      lastPlace (number * 2 ^ exponent) := by
  have lowLog : (2 : ℝ) ^ significand.log2 ≤ number :=
    le_trans (by exact_mod_cast Nat.log2_self_le positive.ne') low
  have highLog : number < 2 ^ (significand.log2 + 1) :=
    high.trans_le (by exact_mod_cast Nat.lt_log2_self)
  have log : Int.log 2 (number * 2 ^ exponent) = significand.log2 + exponent := by
    apply log_eq
    · rw [two_zpow_add, zpow_natCast]
      exact mul_le_mul_of_nonneg_right lowLog (two_zpow_pos _).le
    · rw [add_right_comm, two_zpow_add]
      exact mul_lt_mul_of_pos_right (by exact_mod_cast highLog) (two_zpow_pos _)
  rw [targetExponent_eq_max, lastPlace, log]

/-- What is too small to have a whole part lies in the last place of the least exponent. -/
theorem targetExponent_eq_of_le (positive : 0 < number) (low : significand ≤ number)
    (high : number < significand + 1) (fits : exponent ≤ lastPlace (number * 2 ^ exponent)) :
    Format.binary64.targetExponent (totalExponent significand exponent) =
      lastPlace (number * 2 ^ exponent) := by
  rcases significand.eq_zero_or_pos with isZero | significandPositive
  · have below : number * 2 ^ exponent < 2 ^ exponent := by
      rw [isZero, Nat.cast_zero, zero_add] at high
      exact mul_lt_of_lt_one_left (two_zpow_pos _) high
    have lowest : lastPlace (number * 2 ^ exponent) = -1074 := by
      by_contra raised
      have raised := (lowest_le_lastPlace _).lt_of_ne' raised
      have above := two_zpow_lastPlace_le (mul_pos positive (two_zpow_pos _)) raised
      have less : (2 : ℝ) ^ (lastPlace (number * 2 ^ exponent) + 52) < 2 ^ exponent :=
        above.trans_lt below
      rw [zpow_lt_zpow_iff_right₀ one_lt_two] at less
      omega
    rw [targetExponent_eq_max, isZero, lowest]
    rw [lowest] at fits
    have log : Nat.log2 0 = 0 := Nat.log2_zero
    rw [log, Nat.cast_zero]
    omega
  · exact targetExponent_eq significandPositive low high

theorem mantissa_ofMantissaAndAccuracy (significand : ℕ) (accuracy : Accuracy) :
    (ExtendedMantissa.ofMantissaAndAccuracy significand accuracy).mantissa = significand := by
  cases accuracy with
  | exact => rfl
  | inexact order => cases order <;> rfl

/-! ### The shift after rounding -/

theorem shift_of_narrow (narrow : significand < 2 ^ 53) (lowest : -1074 ≤ exponent) :
    shiftToTargetExponent Format.binary64 significand exponent .exact =
      (ExtendedMantissa.ofMantissaAndAccuracy significand .exact, exponent) := by
  have log : significand.log2 ≤ 52 := by
    rcases significand.eq_zero_or_pos with isZero | positive
    · simp [isZero]
    · exact Nat.le_of_lt_succ ((Nat.log2_lt positive.ne').mpr narrow)
  have noShift : (Format.binary64.targetExponent (totalExponent significand exponent) -
      exponent).toNat = 0 := by
    rw [targetExponent_eq_max]
    omega
  unfold shiftToTargetExponent shiftToExponent
  dsimp only
  rw [noShift, Nat.cast_zero, add_zero]
  rfl

theorem shift_of_carry (lowest : -1074 ≤ exponent) :
    shiftToTargetExponent Format.binary64 (2 ^ 53) exponent .exact =
      (ExtendedMantissa.ofMantissaAndAccuracy (2 ^ 52) .exact, exponent + 1) := by
  have oneShift : (Format.binary64.targetExponent (totalExponent (2 ^ 53) exponent) -
      exponent).toNat = 1 := by
    rw [targetExponent_eq_max, Nat.log2_two_pow]
    omega
  unfold shiftToTargetExponent shiftToExponent
  dsimp only
  rw [oneShift]
  rfl

/-! ### Rounding -/

/-- A significand that is rounded already and has at most carried over. -/
theorem canonical_roundWithAccuracy_of_shift {extended : ExtendedMantissa}
    (shifted : shiftToTargetExponent Format.binary64 significand exponent accuracy =
      (extended, place)) (lowest : -1074 ≤ place)
    (full : 2 ^ 52 ≤ extended.roundedMantissa ∨ place = -1074)
    (narrow : extended.roundedMantissa ≤ 2 ^ 53) :
    Canonical (roundWithAccuracy Format.binary64 .positive significand exponent accuracy)
      (extended.roundedMantissa * 2 ^ place) := by
  unfold roundWithAccuracy
  rw [shifted]
  dsimp only
  generalize extended.roundedMantissa = rounded at *
  rcases narrow.lt_or_eq with strict | rfl
  · rw [shift_of_narrow strict lowest]
    dsimp only
    split
    next isZero =>
      have isZero : rounded = 0 := isZero
      rw [isZero, Nat.cast_zero, zero_mul]
      exact .zero _
    next notZero =>
      exact .finite _ strict lowest full
  · have carried : ((2 ^ 53 : ℕ) : ℝ) * 2 ^ place = (2 ^ 52 : ℕ) * 2 ^ (place + 1) := by
      rw [two_zpow_add, zpow_one]
      push_cast
      ring
    rw [carried, shift_of_carry lowest]
    exact Canonical.finite (show 0 < 2 ^ 52 by decide) (by norm_num) (by omega) (.inl le_rfl)

theorem canonical_roundWithAccuracy
    (tracks : Tracks (ExtendedMantissa.ofMantissaAndAccuracy significand accuracy) number)
    (positive : 0 < number) (fits : exponent ≤ lastPlace (number * 2 ^ exponent)) :
    Canonical (roundWithAccuracy Format.binary64 .positive significand exponent accuracy)
      (nearest (number * 2 ^ exponent)) := by
  have valuePositive : 0 < number * 2 ^ exponent := mul_pos positive (two_zpow_pos _)
  have target := targetExponent_eq_of_le positive
    (mantissa_ofMantissaAndAccuracy significand accuracy ▸ tracks.low)
    (mantissa_ofMantissaAndAccuracy significand accuracy ▸ tracks.high) fits
  obtain ⟨shift, isShift⟩ := Int.le.dest fits
  have rounded : (ExtendedMantissa.ofMantissaAndAccuracy significand accuracy >>>
      shift).roundedMantissa =
        halfEven (number * 2 ^ exponent / 2 ^ lastPlace (number * 2 ^ exponent)) := by
    rw [(tracks.shiftRight shift).roundedMantissa_eq, ← isShift, two_zpow_add, zpow_natCast,
      mul_comm ((2 : ℝ) ^ exponent), mul_div_mul_right _ _ (two_zpow_pos _).ne']
  have shifted : shiftToTargetExponent Format.binary64 significand exponent accuracy =
      (ExtendedMantissa.ofMantissaAndAccuracy significand accuracy >>> shift,
        lastPlace (number * 2 ^ exponent)) := by
    unfold shiftToTargetExponent shiftToExponent
    dsimp only
    have amount : (lastPlace (number * 2 ^ exponent) - exponent).toNat = shift := by omega
    rw [target, amount, isShift]
  have full : 2 ^ 52 ≤ halfEven (number * 2 ^ exponent / 2 ^ lastPlace (number * 2 ^ exponent)) ∨
      lastPlace (number * 2 ^ exponent) = -1074 := by
    rcases (lowest_le_lastPlace (number * 2 ^ exponent)).lt_or_eq with raised | lowest
    · exact .inl (le_halfEven_significand valuePositive raised)
    · exact .inr lowest.symm
  rw [← rounded] at full
  have canonical := canonical_roundWithAccuracy_of_shift shifted (lowest_le_lastPlace _) full
    (rounded ▸ halfEven_significand_le valuePositive.le)
  rw [rounded] at canonical
  exact canonical

theorem depicts_roundWithAccuracy
    (tracks : Tracks (ExtendedMantissa.ofMantissaAndAccuracy significand accuracy) number)
    (positive : 0 < number) (fits : exponent ≤ lastPlace (number * 2 ^ exponent))
    (bounded : nearest (number * 2 ^ exponent) < 2 ^ 1024) :
    Depicts (roundWithAccuracy Format.binary64 .positive significand exponent accuracy)
      (nearest (number * 2 ^ exponent)) :=
  (canonical_roundWithAccuracy tracks positive fits).depicts bounded

theorem shiftLeft_value (significand raise : ℕ) (exponent : ℤ) :
    ((significand <<< raise : ℕ) : ℝ) * 2 ^ (exponent - raise) = significand * 2 ^ exponent := by
  have split : (2 : ℝ) ^ exponent = 2 ^ raise * 2 ^ (exponent - raise) := by
    rw [← zpow_natCast, ← two_zpow_add]
    congr 1
    omega
  rw [Nat.shiftLeft_eq, split]
  push_cast
  ring

theorem depicts_round (positive : 0 < significand)
    (bounded : nearest (significand * 2 ^ exponent) < 2 ^ 1024) :
    Depicts (UnpackedFloat.round Format.binary64 .positive significand exponent)
      (nearest (significand * 2 ^ exponent)) := by
  have target : Format.binary64.targetExponent (totalExponent significand exponent) =
      lastPlace (significand * 2 ^ exponent) :=
    targetExponent_eq positive le_rfl (lt_add_one _)
  unfold UnpackedFloat.round decreaseExponent
  dsimp only
  rw [target]
  generalize isRaise : (exponent - lastPlace (significand * 2 ^ exponent)).toNat = raise
  have value := shiftLeft_value significand raise exponent
  have scaledPositive : (0 : ℝ) < (significand <<< raise : ℕ) := by
    rw [Nat.shiftLeft_eq]
    exact_mod_cast Nat.mul_pos positive (Nat.two_pow_pos raise)
  have fits : exponent - raise ≤
      lastPlace ((significand <<< raise : ℕ) * 2 ^ (exponent - raise)) := by
    rw [value]
    omega
  rw [← value] at bounded ⊢
  exact depicts_roundWithAccuracy (tracks_exact _) scaledPositive fits bounded

theorem depicts_normalize (significand : ℕ) (exponent : ℤ)
    (bounded : nearest (significand * 2 ^ exponent) < 2 ^ 1024) :
    Depicts (UnpackedFloat.normalize Format.binary64 significand exponent .positive)
      (nearest (significand * 2 ^ exponent)) := by
  unfold UnpackedFloat.normalize
  rcases significand.eq_zero_or_pos with isZero | positive
  · have value : (significand : ℝ) * 2 ^ exponent = 0 := by rw [isZero, Nat.cast_zero, zero_mul]
    rw [value, nearest_zero, isZero]
    exact .zero _
  · rw [Int.compare_eq_gt.mpr (by exact_mod_cast positive)]
    exact depicts_round positive bounded

end LogLinear.Binary64
