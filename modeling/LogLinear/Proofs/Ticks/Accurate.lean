import LogLinear.Proofs.Binary64.Arithmetic
import LogLinear.Traversal.Ticks
import Mathlib.Analysis.SpecialFunctions.Pow.Real

/-!
Contract: what is asked of the logarithm and the power that ticks are computed with.

Owns:
- their accuracy, which is a thousandth and far less than what machines have, or any other one;
- correctly rounded functions, which are accurate.

Does not own: why that accuracy is enough. `LogLinear.Proofs.Ticks.Following` has it, and
`LogLinear.Proofs.Ticks.Level` says what a better one gives.
-/

namespace LogLinear

open Binary64 Float.Model Float.Model.UnpackedFloat

/-- The logarithm of a number that is not below 1, and two to the power of a number up to 64, have an
error of at most a thousandth. -/
structure Elementary.Accurate (elementary : Elementary) : Prop where
  ln {number : Float} {value : ℝ} (denotes : Denotes number value) (above : 1 ≤ value) :
    ∃ result, Denotes (elementary.ln number) result ∧
      |result - Real.log value| ≤ (1 + Real.log value) / 1024
  power {exponent : Float} {value : ℝ} (denotes : Denotes exponent value) (below : value ≤ 64) :
    ∃ result, Denotes (elementary.power 2.0 exponent) result ∧
      |result - 2 ^ value| ≤ 2 ^ value / 1024

/-- The same with an error of any size. -/
structure Elementary.AccurateTo (error : ℝ) (elementary : Elementary) : Prop where
  ln {number : Float} {value : ℝ} (denotes : Denotes number value) (above : 1 ≤ value) :
    ∃ result, Denotes (elementary.ln number) result ∧
      |result - Real.log value| ≤ error * (1 + Real.log value)
  power {exponent : Float} {value : ℝ} (denotes : Denotes exponent value) (below : value ≤ 64) :
    ∃ result, Denotes (elementary.power 2.0 exponent) result ∧
      |result - 2 ^ value| ≤ error * 2 ^ value

theorem Elementary.AccurateTo.mono {error greater : ℝ} {elementary : Elementary}
    (accurate : elementary.AccurateTo error) (ordered : error ≤ greater) :
    elementary.AccurateTo greater where
  ln {_ value} denotes above := by
    obtain ⟨result, resultDenotes, near⟩ := accurate.ln denotes above
    have nonneg : 0 ≤ 1 + Real.log value := add_nonneg zero_le_one (Real.log_nonneg above)
    exact ⟨result, resultDenotes, near.trans (mul_le_mul_of_nonneg_right ordered nonneg)⟩
  power {_ value} denotes below := by
    obtain ⟨result, resultDenotes, near⟩ := accurate.power denotes below
    have nonneg : (0 : ℝ) ≤ 2 ^ value := Real.rpow_nonneg two_pos.le value
    exact ⟨result, resultDenotes, near.trans (mul_le_mul_of_nonneg_right ordered nonneg)⟩

theorem Elementary.accurate_iff {elementary : Elementary} :
    elementary.Accurate ↔ elementary.AccurateTo (1 / 1024) := by
  constructor
  · intro accurate
    constructor
    · intro number value denotes above
      rw [one_div_mul_eq_div]
      exact accurate.ln denotes above
    · intro exponent value denotes below
      rw [one_div_mul_eq_div]
      exact accurate.power denotes below
  · intro accurate
    constructor
    · intro number value denotes above
      rw [← one_div_mul_eq_div]
      exact accurate.ln denotes above
    · intro exponent value denotes below
      rw [← one_div_mul_eq_div]
      exact accurate.power denotes below

namespace Binary64

/-- The machine number nearest to a number that is not below zero. -/
noncomputable def ofReal (number : ℝ) : Float :=
  Float.ofModel (Float.Model.pack (normalize Format.binary64
    (halfEven (number / 2 ^ lastPlace number)) (lastPlace number) .positive))

open Classical in
/-- The value of a machine number, or zero if it has none. -/
noncomputable def valueOf (number : Float) : ℝ :=
  if valued : ∃ value, Denotes number value then valued.choose else 0

theorem denotes_ofReal {number : ℝ} {power : ℕ} (nonneg : 0 ≤ number)
    (bounded : number ≤ 2 ^ power) (small : power ≤ 1023) :
    Denotes (ofReal number) (nearest number) := by
  have fits : nearest (nearest number) < 2 ^ 1024 := by
    rw [nearest_nearest nonneg]
    exact nearest_lt_of_le nonneg bounded small
  have depicts := depicts_normalize (halfEven (number / 2 ^ lastPlace number)) _ fits
  change Depicts _ (nearest (nearest number)) at depicts
  rw [nearest_nearest nonneg] at depicts
  exact depicts.denotes

theorem Denotes.valueOf_eq {number : Float} {value : ℝ} (denotes : Denotes number value) :
    valueOf number = value := by
  have valued : ∃ value, Denotes number value := ⟨value, denotes⟩
  have chosen : Denotes number valued.choose := valued.choose_spec
  have self : number ≤ number := (denotes.le_iff denotes).mpr le_rfl
  rw [valueOf, dif_pos valued]
  exact le_antisymm ((chosen.le_iff denotes).mp self) ((denotes.le_iff chosen).mp self)

theorem Denotes.unique {number : Float} {value other : ℝ} (denotes : Denotes number value)
    (otherDenotes : Denotes number other) : value = other :=
  denotes.valueOf_eq.symm.trans otherDenotes.valueOf_eq

end Binary64

/-- Functions whose results are the nearest machine numbers. -/
noncomputable def Elementary.rounded : Elementary where
  ln number := ofReal (Real.log (valueOf number))
  power base exponent := ofReal (valueOf base ^ valueOf exponent)

/-- Rounding to 53 bits has half of this error, and the other half makes up for small results. -/
theorem Elementary.rounded_accurateTo : Elementary.rounded.AccurateTo (1 / 2 ^ 52) where
  ln {number value} denotes above := by
    have nonneg : 0 ≤ Real.log value := Real.log_nonneg above
    have bounded : Real.log value ≤ 2 ^ 10 := by
      have two : Real.log 2 ≤ 2 - 1 := Real.log_le_sub_one_of_pos two_pos
      calc Real.log value ≤ Real.log (2 ^ 1024) :=
            Real.log_le_log (by linarith) denotes.lt_two_pow.le
        _ = 1024 * Real.log 2 := by rw [Real.log_pow, Nat.cast_ofNat]
        _ ≤ 2 ^ 10 := by linarith
    refine ⟨nearest (Real.log value), ?_, ?_⟩
    · rw [Elementary.rounded]
      dsimp only
      rw [denotes.valueOf_eq]
      exact denotes_ofReal nonneg bounded (by decide)
    · have error := abs_nearest_sub_le_add_one nonneg
      linarith
  power {exponent value} denotes below := by
    have one : (1 : ℝ) ≤ 2 ^ value := Real.one_le_rpow one_le_two denotes.nonneg
    have bounded : (2 : ℝ) ^ value ≤ 2 ^ 64 := by
      rw [← Real.rpow_natCast]
      exact Real.rpow_le_rpow_of_exponent_le one_le_two (by exact_mod_cast below)
    refine ⟨nearest (2 ^ value), ?_, ?_⟩
    · rw [Elementary.rounded]
      dsimp only
      rw [denotes.valueOf_eq, denotes_two.valueOf_eq]
      exact denotes_ofReal (by linarith) bounded (by decide)
    · have error := @abs_nearest_sub_le_add_one (2 ^ value) (by linarith)
      linarith

theorem Elementary.rounded_accurate : Elementary.rounded.Accurate :=
  Elementary.accurate_iff.mpr (Elementary.rounded_accurateTo.mono (by norm_num))

end LogLinear
