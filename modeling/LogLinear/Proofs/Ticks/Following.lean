import LogLinear.Proofs.Binary64.Near
import LogLinear.Proofs.Ticks.Accurate
import Mathlib.Analysis.Complex.ExponentialBounds
import Mathlib.Analysis.SpecialFunctions.Log.Base

/-!
Contract: one tick follows another on the scale, however the distance is rounded.

Owns:
- the power that the distance is computed with, which is at least half as large again as the inverse
  of the share of the scale that is left, and not much more than two and a half times as large;
- the tick after a tick, which is not above 100, and is further on by a part of what is left, less
  what rounding may take.

Does not own: whether ticks get past a percentage. `LogLinear.Proofs.Ticks.Progress` has that.
-/

namespace LogLinear.Ticks

open Binary64

/-! ### Real bounds -/

/-- The quotient of two logarithms that are off by an error. -/
theorem quotient_near_logb {number ln lnTwo error : ℝ} (low : 1 ≤ number) (high : number ≤ 2 ^ 54)
    (small : error ≤ 1 / 1024) (lnError : |ln - Real.log number| ≤ error * (1 + Real.log number))
    (twoError : |lnTwo - Real.log 2| ≤ error * (1 + Real.log 2)) :
    0 < lnTwo ∧ |ln / lnTwo - Real.logb 2 number| ≤ 256 * error ∧ ln / lnTwo ≤ 60 := by
  have twoLow : 0.6931 < Real.log 2 := by linarith [Real.log_two_gt_d9]
  have twoHigh : Real.log 2 < 0.6932 := by linarith [Real.log_two_lt_d9]
  have logNonneg : 0 ≤ Real.log number := Real.log_nonneg low
  have logHigh : Real.log number ≤ 54 * Real.log 2 := by
    calc Real.log number ≤ Real.log (2 ^ 54) := Real.log_le_log (by linarith) high
      _ = 54 * Real.log 2 := by rw [Real.log_pow, Nat.cast_ofNat]
  rw [Real.logb]
  generalize Real.log number = log at *
  generalize Real.log 2 = two at *
  have nonneg : 0 ≤ error := nonneg_of_mul_nonneg_left ((abs_nonneg _).trans twoError) (by linarith)
  have twoNear : 0.69 ≤ lnTwo := by
    have part : error * (1 + two) ≤ 1 / 1024 * (1 + two) :=
      mul_le_mul_of_nonneg_right small (by linarith)
    linarith [(abs_le.mp twoError).1]
  have positive : 0 < lnTwo * two := mul_pos (by linarith) (by linarith)
  have near : |ln / lnTwo - log / two| ≤ 256 * error := by
    have split : ln / lnTwo - log / two =
        ((ln - log) * two - (lnTwo - two) * log) / (lnTwo * two) := by
      field_simp
      ring
    rw [split, abs_div, abs_of_pos positive, div_le_iff₀ positive]
    calc |(ln - log) * two - (lnTwo - two) * log|
        ≤ |ln - log| * two + |lnTwo - two| * log := by
          refine (abs_sub _ _).trans_eq ?_
          rw [abs_mul, abs_mul, abs_of_pos (by linarith : 0 < two), abs_of_nonneg logNonneg]
      _ ≤ error * (1 + log) * two + error * (1 + two) * log :=
          add_le_add (mul_le_mul_of_nonneg_right lnError (by linarith))
            (mul_le_mul_of_nonneg_right twoError logNonneg)
      _ = error * (two + log + 2 * log * two) := by ring
      _ ≤ error * (256 * (lnTwo * two)) := by
          apply mul_le_mul_of_nonneg_left _ nonneg
          have above : log * two ≤ log * 0.6932 := mul_le_mul_of_nonneg_left twoHigh.le logNonneg
          have below : 0.69 * two ≤ lnTwo * two := mul_le_mul_of_nonneg_right twoNear (by linarith)
          linarith
      _ = 256 * error * (lnTwo * two) := by ring
  have logb : log / two ≤ 54 := (div_le_iff₀ (by linarith)).mpr logHigh
  refine ⟨by linarith, near, ?_⟩
  linarith [(abs_le.mp near).2]

theorem le_two_rpow {number exponent : ℝ} (positive : 0 < number)
    (above : Real.logb 2 number + 2 / 3 ≤ exponent) : 1.58 * number ≤ 2 ^ exponent := by
  have root : (1.58 : ℝ) ≤ 2 ^ (2 / 3 : ℝ) := by
    have cube : ((2 : ℝ) ^ (2 / 3 : ℝ)) ^ 3 = 4 := by
      rw [← Real.rpow_natCast, ← Real.rpow_mul two_pos.le]
      norm_num
    by_contra below
    rw [not_le] at below
    have less := pow_lt_pow_left₀ below (by positivity) three_ne_zero
    rw [cube] at less
    norm_num at less
  calc 1.58 * number ≤ 2 ^ (2 / 3 : ℝ) * number := mul_le_mul_of_nonneg_right root positive.le
    _ = 2 ^ (2 / 3 : ℝ) * 2 ^ Real.logb 2 number := by
        rw [Real.rpow_logb two_pos (by norm_num) positive]
    _ = 2 ^ (Real.logb 2 number + 2 / 3) := by rw [Real.rpow_add two_pos, mul_comm]
    _ ≤ 2 ^ exponent := Real.rpow_le_rpow_of_exponent_le one_le_two above

theorem two_rpow_le {number exponent : ℝ} (positive : 0 < number)
    (below : exponent ≤ Real.logb 2 number + 4 / 3) : 2 ^ exponent ≤ 2.52 * number := by
  have root : (2 : ℝ) ^ (4 / 3 : ℝ) ≤ 2.52 := by
    have cube : ((2 : ℝ) ^ (4 / 3 : ℝ)) ^ 3 = 16 := by
      rw [← Real.rpow_natCast, ← Real.rpow_mul two_pos.le]
      norm_num
    by_contra above
    rw [not_le] at above
    have less := pow_lt_pow_left₀ above (by norm_num) three_ne_zero
    rw [cube] at less
    norm_num at less
  calc (2 : ℝ) ^ exponent ≤ 2 ^ (Real.logb 2 number + 4 / 3) :=
        Real.rpow_le_rpow_of_exponent_le one_le_two below
    _ = 2 ^ (4 / 3 : ℝ) * 2 ^ Real.logb 2 number := by rw [Real.rpow_add two_pos, mul_comm]
    _ = 2 ^ (4 / 3 : ℝ) * number := by rw [Real.rpow_logb two_pos (by norm_num) positive]
    _ ≤ 2.52 * number := mul_le_mul_of_nonneg_right root positive.le

/-- What is at most two thirds of the room does not exceed it by rounding. -/
theorem nearest_step_le {room ticks : ℝ} (wide : 1 / 2 ^ 46 ≤ room) (ticksLow : 1 ≤ ticks)
    (share : 150 ≤ room * ticks) : nearest (100 / ticks) ≤ room := by
  have quotient : 100 / ticks ≤ room * (2 / 3) := by
    rw [div_le_iff₀ (by linarith)]
    linarith
  have normal : 1 / 2 ^ 100 ≤ room * (2 / 3) := by linarith
  calc nearest (100 / ticks) ≤ nearest (room * (2 / 3)) :=
        nearest_mono (div_nonneg (by norm_num) (by linarith)) quotient
    _ ≤ room * (2 / 3) * (1 + 1 / 2 ^ 53) := (nearest_bounds (normal_of_le normal)).2
    _ ≤ room := by linarith

/-- The number of ticks to a half decides what part of the room the step is, but for the last
place. -/
theorem le_nearest_step {room ticks perHalf : ℝ} (positive : 0 < perHalf) (nonneg : 0 ≤ room)
    (ticksLow : 1 ≤ ticks) (share : room * ticks ≤ 256 * perHalf) :
    room / perHalf * 0.39 ≤ nearest (100 / ticks) + 1 / 2 ^ 53 := by
  have ticksPositive : 0 < ticks := by linarith
  have part : 0 ≤ room / perHalf := div_nonneg nonneg positive.le
  have quotient : room / perHalf * (100 / 256) ≤ 100 / ticks := by
    rw [div_mul_div_comm, div_le_div_iff₀ (by positivity) ticksPositive]
    linarith
  obtain ⟨near, -⟩ := abs_le.mp
    (abs_nearest_sub_le_add_one (div_nonneg (by norm_num : (0 : ℝ) ≤ 100) ticksPositive.le))
  linarith

/-- Rounding a factor, and then the product, makes it hardly greater. -/
theorem nearest_nearest_mul_le {left right : ℝ} (leftLow : 1 ≤ left) (rightLow : 1 ≤ right) :
    nearest (nearest left * right) ≤ 1.001 * (left * right) := by
  have leftNormal : 1 / 2 ^ 100 ≤ left := by linarith
  obtain ⟨nearLow, nearHigh⟩ := nearest_bounds (normal_of_le leftNormal)
  have product : nearest left * right ≤ left * (1 + 1 / 2 ^ 53) * right :=
    mul_le_mul_of_nonneg_right nearHigh (by linarith)
  have whole : 1 ≤ left * right := one_le_mul_of_one_le_of_one_le leftLow rightLow
  have near : left * (1 - 1 / 2 ^ 53) * right ≤ nearest left * right :=
    mul_le_mul_of_nonneg_right nearLow (by linarith)
  have normal : 1 / 2 ^ 100 ≤ nearest left * right := by linarith
  obtain ⟨-, high⟩ := nearest_bounds (normal_of_le normal)
  linarith

/-! ### The rest of the scale -/

section Rest

variable {tick : Float} {value : ℝ} (denotes : Denotes tick value)
include denotes

/-- Ticks below 100 keep away from it by at least the distance of two machine numbers there. -/
theorem gap_le (below : value < 100) : 1 / 2 ^ 46 ≤ 100 - value := by
  by_cases small : value < 64
  · have power : (1 : ℝ) / 2 ^ 46 ≤ 1 := by norm_num
    linarith
  · have place := lastPlace_near_hundred (not_lt.mp small) (below.trans (by norm_num))
    have isValue := denotes.nearest_eq
    rw [nearest, place] at isValue
    generalize halfEven (value / 2 ^ (-46 : ℤ)) = significand at isValue
    have power : (2 : ℝ) ^ (-46 : ℤ) = 1 / 2 ^ 46 := by
      rw [zpow_neg, one_div]
      rfl
    rw [power] at isValue
    have less : (significand : ℝ) < (100 * 2 ^ 46 : ℕ) := by
      push_cast
      linarith
    have next : ((significand + 1 : ℕ) : ℝ) ≤ (100 * 2 ^ 46 : ℕ) :=
      Nat.cast_le.mpr (Nat.cast_lt.mp less)
    push_cast at next
    linarith

theorem denotes_gap (inside : value ≤ 100) :
    Denotes (100.0 - tick) (nearest (100 - value)) := by
  have nonneg := denotes.nonneg
  have bounded : 100 - value ≤ 2 ^ 7 := by linarith
  exact denotes_hundred.sub denotes inside bounded (by decide)

theorem near_gap (below : value < 100) :
    Near (1 / 2 ^ 53) (100 - value) (nearest (100 - value)) := by
  have room := gap_le denotes below
  exact near_nearest (normal_of_le (by linarith))

/-- The inverse of the share of the scale that is left, as computed. -/
theorem denotes_inverse_share (below : value < 100) :
    ∃ inverse, Denotes (100.0 / (100.0 - tick)) inverse ∧ 1 ≤ inverse ∧ inverse ≤ 2 ^ 54 ∧
      Near (1 / 2 ^ 51) (100 / (100 - value)) inverse := by
  have room := gap_le denotes below
  have valueNonneg := denotes.nonneg
  have gapDenotes := denotes_gap denotes below.le
  have gapNear := near_gap denotes below
  have gapLeHundred : nearest (100 - value) ≤ 100 :=
    denotes_hundred.nearest_le (by linarith) (by linarith)
  generalize nearest (100 - value) = gap at *
  have gapPositive : 0 < gap := by linarith [gapNear.bounds.1]
  have quotientLow : 1 ≤ 100 / gap := (one_le_div gapPositive).mpr gapLeHundred
  have quotientHigh : 100 / gap ≤ 2 ^ 54 := by
    rw [div_le_iff₀ gapPositive]
    linarith [gapNear.bounds.1]
  have quotientNear := gapNear.div_left (show (0 : ℝ) ≤ 100 by norm_num) (by linarith)
    (by norm_num)
  refine ⟨nearest (100 / gap), ?_, ?_, ?_, ?_⟩
  · exact denotes_hundred.div gapDenotes gapPositive quotientHigh (by decide)
  · exact denotes_one.le_nearest quotientLow
  · exact nearest_le_two_pow (by linarith) quotientHigh
  · exact quotientNear.trans (near_nearest (normal_of_le (by linarith)))
      (div_nonneg (by norm_num) (by linarith)) (by norm_num) (by norm_num)

end Rest

/-! ### The density of ticks -/

/-- A tick and the one after it: they do not go back, nor beyond 100, and the second is on by a part
of the rest of the scale, but for the last place. -/
structure Advances (perHalf : ℕ) (value next : ℝ) : Prop where
  value_le : value ≤ next
  le_hundred : next ≤ 100
  gain_le : (100 - value) / perHalf * 0.39 ≤ next - value + 102 / 2 ^ 53

variable {elementary : Elementary}

/-- The exponent of the power, as computed. The last places of the quotient and of the sum are far
less than what the logarithms may be off. -/
theorem denotes_exponent {error : ℝ} (accurate : elementary.AccurateTo error)
    (small : error ≤ 1 / 1024) {number : Float} {value : ℝ} (denotes : Denotes number value)
    (low : 1 ≤ value) (high : value ≤ 2 ^ 54) :
    ∃ exponent, Denotes (elementary.ln number / elementary.ln 2.0 + 1.0) exponent ∧
      |exponent - (Real.logb 2 value + 1)| ≤ 256 * error + 1 / 2 ^ 46 ∧ exponent ≤ 64 := by
  obtain ⟨ln, lnDenotes, lnError⟩ := accurate.ln denotes low
  obtain ⟨lnTwo, twoDenotes, twoError⟩ := accurate.ln denotes_two one_le_two
  obtain ⟨twoPositive, quotientNear, quotientHigh⟩ :=
    quotient_near_logb low high small lnError twoError
  have quotientNonneg : 0 ≤ ln / lnTwo := div_nonneg lnDenotes.nonneg twoPositive.le
  have quotientSmall : ln / lnTwo ≤ 2 ^ 6 := quotientHigh.trans (by norm_num)
  have quotientDenotes := lnDenotes.div twoDenotes twoPositive quotientSmall (by decide)
  have quotientError := abs_le.mp (abs_nearest_sub_le_add_one quotientNonneg)
  generalize nearest (ln / lnTwo) = rounded at *
  have sumHigh : rounded + 1 ≤ 2 ^ 6 := by linarith
  have sumNonneg : 0 ≤ rounded + 1 := add_nonneg quotientDenotes.nonneg zero_le_one
  have exponentHigh := nearest_le_two_pow sumNonneg sumHigh
  have sumError := abs_le.mp (abs_nearest_sub_le_add_one sumNonneg)
  refine ⟨nearest (rounded + 1), quotientDenotes.add denotes_one sumHigh (by decide), ?_,
    exponentHigh.trans (by norm_num)⟩
  obtain ⟨nearLow, nearHigh⟩ := abs_le.mp quotientNear
  rw [abs_le]
  constructor <;> linarith

theorem denotes_power (accurate : elementary.Accurate) {number : Float} {value : ℝ}
    (denotes : Denotes number value) (low : 1 ≤ value) (high : value ≤ 2 ^ 54) :
    ∃ result,
      Denotes (elementary.power 2.0 (elementary.ln number / elementary.ln 2.0 + 1.0)) result ∧
      1.57 * value ≤ result ∧ result ≤ 2.53 * value ∧ result ≤ 2 ^ 65 := by
  obtain ⟨exponent, exponentDenotes, exponentNear, exponentHigh⟩ :=
    denotes_exponent (Elementary.accurate_iff.mp accurate) le_rfl denotes low high
  obtain ⟨nearLow, nearHigh⟩ := abs_le.mp exponentNear
  obtain ⟨result, resultDenotes, resultError⟩ := accurate.power exponentDenotes exponentHigh
  obtain ⟨resultLow, resultHigh⟩ := abs_le.mp resultError
  have powerLow : 1.58 * value ≤ 2 ^ exponent := le_two_rpow (by linarith) (by linarith)
  have powerNear : 2 ^ exponent ≤ 2.52 * value := two_rpow_le (by linarith) (by linarith)
  have powerHigh : (2 : ℝ) ^ exponent ≤ 2 ^ (64 : ℝ) :=
    Real.rpow_le_rpow_of_exponent_le one_le_two exponentHigh
  have power : (2 : ℝ) ^ (64 : ℝ) = 2 ^ 64 := by exact_mod_cast Real.rpow_natCast 2 64
  rw [power] at powerHigh
  exact ⟨result, resultDenotes, by linarith, by linarith, by linarith⟩

section Tick

variable {perHalf : ℕ} {tick : Float} {value : ℝ}

theorem denotes_density_of_power (word : perHalf ≤ Word.max) {power : ℝ}
    (powerDenotes : Denotes (elementary.power 2.0
      (elementary.ln (100.0 / (100.0 - tick)) / elementary.ln 2.0 + 1.0)) power)
    (powerHigh : power ≤ 2 ^ 65) :
    Denotes (density elementary perHalf tick) (nearest (nearest perHalf * power)) := by
  have productHigh : nearest perHalf * power ≤ 2 ^ 129 := by
    calc nearest perHalf * power ≤ 2 ^ 64 * 2 ^ 65 :=
          mul_le_mul (nearest_le_of_word word) powerHigh powerDenotes.nonneg (by positivity)
      _ = 2 ^ 129 := by norm_num
  exact (denotes_toFloat word).mul powerDenotes productHigh (by decide)

variable (denotes : Denotes tick value)
include denotes

/-- Below 100 the next tick is on by the inverse of the density. -/
theorem denotes_following_of_lt (below : value < 100) {ticks : ℝ}
    (ticksDenotes : Denotes (density elementary perHalf tick) ticks) (ticksLow : 1 ≤ ticks)
    (inside : value + nearest (100 / ticks) ≤ 100) :
    Denotes (following elementary perHalf tick) (nearest (value + nearest (100 / ticks))) := by
  have room := gap_le denotes below
  obtain ⟨gapLow, -⟩ := (near_gap denotes below).bounds
  have notZero : nearest (100 - value) ≠ 0 := by
    apply ne_of_gt
    linarith
  have stepSmall : 100 / ticks ≤ 2 ^ 7 := (div_le_self (by norm_num) ticksLow).trans (by norm_num)
  have stepDenotes := denotes_hundred.div ticksDenotes (by linarith) stepSmall (by decide)
  have sumSmall : value + nearest (100 / ticks) ≤ 2 ^ 7 := inside.trans (by norm_num)
  unfold following
  rw [if_pos (((denotes_gap denotes below.le).bne_iff denotes_zero).mpr notZero)]
  exact denotes.add stepDenotes sumSmall (by decide)

theorem following_of_hundred (isHundred : value = 100) :
    following elementary perHalf tick = tick := by
  have gapDenotes := denotes_gap denotes isHundred.le
  rw [isHundred, sub_self, nearest_zero] at gapDenotes
  have isZero : ¬ (100.0 - tick != 0.0) = true := by
    intro notZero
    exact (gapDenotes.bne_iff denotes_zero).mp notZero rfl
  exact if_neg isZero

end Tick

section Density

variable (accurate : elementary.Accurate) {perHalf : ℕ} (positive : 0 < perHalf)
  (word : perHalf ≤ Word.max) {tick : Float} {value : ℝ} (denotes : Denotes tick value)
include accurate positive word denotes

/-- The density exceeds, by half, the one at which the next tick would be at 100, and it is not much
more than the one at which some part of the rest would be covered. -/
theorem denotes_density (below : value < 100) :
    ∃ ticks, Denotes (density elementary perHalf tick) ticks ∧ 1 ≤ ticks ∧
      150 ≤ (100 - value) * ticks ∧ (100 - value) * ticks ≤ 256 * perHalf := by
  obtain ⟨inverse, inverseDenotes, inverseLow, inverseHigh, inverseNear⟩ :=
    denotes_inverse_share denotes below
  obtain ⟨power, powerDenotes, powerLow, powerNear, powerHigh⟩ :=
    denotes_power accurate inverseDenotes inverseLow inverseHigh
  have whole : (100 - value) * (100 / (100 - value)) = 100 :=
    mul_div_cancel₀ _ (by linarith)
  have share := inverseNear.mul_left (sub_nonneg.mpr below.le)
  rw [whole] at share
  obtain ⟨shareLow, shareHigh⟩ := share.bounds
  have densityLow : power ≤ nearest (nearest perHalf * power) := by
    apply powerDenotes.le_nearest
    exact le_mul_of_one_le_left powerDenotes.nonneg (one_le_nearest positive)
  refine ⟨_, denotes_density_of_power word powerDenotes powerHigh, by linarith, ?_, ?_⟩
  · calc (150 : ℝ) ≤ 1.57 * ((100 - value) * inverse) := by linarith
      _ = (100 - value) * (1.57 * inverse) := mul_left_comm _ _ _
      _ ≤ (100 - value) * nearest (nearest perHalf * power) :=
          mul_le_mul_of_nonneg_left (powerLow.trans densityLow) (by linarith)
  · have scaled : (100 - value) * power ≤ 255.6 := by
      calc (100 - value) * power ≤ (100 - value) * (2.53 * inverse) :=
            mul_le_mul_of_nonneg_left powerNear (by linarith)
        _ = 2.53 * ((100 - value) * inverse) := mul_left_comm _ _ _
        _ ≤ 255.6 := by linarith
    have one : (1 : ℝ) ≤ perHalf := by exact_mod_cast positive
    have densityHigh := nearest_nearest_mul_le one (show 1 ≤ power by linarith)
    calc (100 - value) * nearest (nearest perHalf * power)
        ≤ (100 - value) * (1.001 * (perHalf * power)) :=
          mul_le_mul_of_nonneg_left densityHigh (by linarith)
      _ = 1.001 * perHalf * ((100 - value) * power) := by ring
      _ ≤ 1.001 * perHalf * 255.6 := mul_le_mul_of_nonneg_left scaled (by linarith)
      _ ≤ 256 * perHalf := by linarith

/-- The tick after a tick on the scale. -/
theorem denotes_following (inside : value ≤ 100) :
    ∃ next, Denotes (following elementary perHalf tick) next ∧ Advances perHalf value next := by
  rcases inside.lt_or_eq with below | isHundred
  · have room := gap_le denotes below
    obtain ⟨ticks, ticksDenotes, ticksLow, shareLow, shareHigh⟩ :=
      denotes_density accurate positive word denotes below
    have stepHigh := nearest_step_le room ticksLow shareLow
    have stepLow := le_nearest_step (Nat.cast_pos.mpr positive) (by linarith) ticksLow shareHigh
    have sumHigh : value + nearest (100 / ticks) ≤ 100 := by linarith
    have sumLow : value ≤ value + nearest (100 / ticks) :=
      le_add_of_nonneg_right (nearest_nonneg _)
    have sumNonneg := denotes.nonneg.trans sumLow
    obtain ⟨near, -⟩ := abs_le.mp (abs_nearest_sub_le_add_one sumNonneg)
    refine ⟨_, denotes_following_of_lt denotes below ticksDenotes ticksLow sumHigh, ?_, ?_, ?_⟩
    · exact denotes.le_nearest sumLow
    · exact denotes_hundred.nearest_le sumNonneg sumHigh
    · linarith
  · rw [following_of_hundred denotes isHundred]
    refine ⟨value, denotes, le_rfl, inside, ?_⟩
    rw [isHundred, sub_self, zero_div, zero_mul]
    norm_num

end Density

end LogLinear.Ticks
