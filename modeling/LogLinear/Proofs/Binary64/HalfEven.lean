import Mathlib.Algebra.Order.Archimedean.Real.Basic
import Mathlib.Tactic.Linarith

/-!
Contract: rounding to whole numbers, halves going to the even one.

Owns:
- the rounding of a real number that is not below zero, its error and its monotonicity;
- the whole parts with two residual bits that binary64 arithmetic shifts, and the number that each
  of them stands for.

Does not own: the choice of the unit that is rounded to. `LogLinear.Proofs.Binary64.Nearest` has it.
-/

namespace LogLinear.Binary64

open Float.Model.UnpackedFloat

/-- The numeral 2 of the real numbers rests on this. It has a name, so that the definitions below and
in later modules share it. -/
instance atLeastTwo_two : Nat.AtLeastTwo 2 := ⟨le_rfl⟩

/-- The same for the numeral 100, the end of the percentage scale. -/
instance atLeastTwo_hundred : Nat.AtLeastTwo 100 := ⟨by decide⟩

/-- The whole number nearest to a number that is not below zero; of two such, the even one. -/
noncomputable def halfEven (number : ℝ) : ℕ :=
  if number < ⌊number⌋₊ + 1 / 2 then ⌊number⌋₊
  else if number = ⌊number⌋₊ + 1 / 2 then ⌊number⌋₊ + ⌊number⌋₊ % 2
  else ⌊number⌋₊ + 1

section HalfEven

variable {number : ℝ} {whole : ℕ}

theorem halfEven_of_lt_half (low : whole ≤ number) (high : number < whole + 1 / 2) :
    halfEven number = whole := by
  have floor : ⌊number⌋₊ = whole :=
    (Nat.floor_eq_iff (le_trans whole.cast_nonneg low)).mpr ⟨low, by linarith⟩
  rw [halfEven, floor, if_pos high]

theorem halfEven_of_eq_half (middle : number = whole + 1 / 2) :
    halfEven number = whole + whole % 2 := by
  have nonneg : (0 : ℝ) ≤ whole := whole.cast_nonneg
  have floor : ⌊number⌋₊ = whole :=
    (Nat.floor_eq_iff (by linarith)).mpr ⟨by linarith, by linarith⟩
  rw [halfEven, floor, if_neg (by linarith), if_pos middle]

theorem halfEven_of_half_lt (low : whole + 1 / 2 < number) (high : number < whole + 1) :
    halfEven number = whole + 1 := by
  have nonneg : (0 : ℝ) ≤ whole := whole.cast_nonneg
  have floor : ⌊number⌋₊ = whole :=
    (Nat.floor_eq_iff (by linarith)).mpr ⟨by linarith, high⟩
  rw [halfEven, floor, if_neg (by linarith), if_neg (by linarith)]

@[simp]
theorem halfEven_natCast (whole : ℕ) : halfEven whole = whole :=
  halfEven_of_lt_half le_rfl (by linarith)

@[simp]
theorem halfEven_zero : halfEven 0 = 0 := by
  simpa using halfEven_natCast 0

theorem floor_le_halfEven (number : ℝ) : ⌊number⌋₊ ≤ halfEven number := by
  unfold halfEven
  split_ifs <;> omega

theorem halfEven_le_floor_add_one (number : ℝ) : halfEven number ≤ ⌊number⌋₊ + 1 := by
  unfold halfEven
  split_ifs <;> omega

theorem abs_halfEven_sub_le (nonneg : 0 ≤ number) : |halfEven number - number| ≤ 1 / 2 := by
  have low : (⌊number⌋₊ : ℝ) ≤ number := Nat.floor_le nonneg
  have high : number < ⌊number⌋₊ + 1 := Nat.lt_floor_add_one number
  rcases lt_trichotomy number (⌊number⌋₊ + 1 / 2) with below | middle | above
  · rw [halfEven_of_lt_half low below, abs_le]
    constructor <;> linarith
  · have parity : ((⌊number⌋₊ % 2 : ℕ) : ℝ) ≤ 1 := by
      exact_mod_cast Nat.le_of_lt_succ (Nat.mod_lt _ Nat.two_pos)
    have parityNonneg : (0 : ℝ) ≤ (⌊number⌋₊ % 2 : ℕ) := Nat.cast_nonneg _
    rw [halfEven_of_eq_half middle, abs_le, Nat.cast_add]
    constructor <;> linarith
  · rw [halfEven_of_half_lt above high, abs_le, Nat.cast_add, Nat.cast_one]
    constructor <;> linarith

theorem halfEven_mono {small large : ℝ} (nonneg : 0 ≤ small) (ordered : small ≤ large) :
    halfEven small ≤ halfEven large := by
  have floors : ⌊small⌋₊ ≤ ⌊large⌋₊ := Nat.floor_le_floor ordered
  rcases floors.lt_or_eq with apart | same
  · calc halfEven small ≤ ⌊small⌋₊ + 1 := halfEven_le_floor_add_one small
      _ ≤ ⌊large⌋₊ := apart
      _ ≤ halfEven large := floor_le_halfEven large
  · have low : (⌊small⌋₊ : ℝ) ≤ small := Nat.floor_le nonneg
    have high : large < ⌊small⌋₊ + 1 := same ▸ Nat.lt_floor_add_one large
    rcases lt_trichotomy small (⌊small⌋₊ + 1 / 2) with below | middle | above
    · rw [halfEven_of_lt_half low below, same]
      exact floor_le_halfEven large
    · rcases ordered.lt_or_eq with strict | equal
      · rw [halfEven_of_eq_half middle, halfEven_of_half_lt (by linarith) high]
        omega
      · rw [equal]
    · rw [halfEven_of_half_lt above (by linarith), halfEven_of_half_lt (by linarith) high]

/-- What is below a whole number by more than a half rounds to a smaller one. An even number
attracts the half below it as well. -/
theorem halfEven_lt_iff_of_even (nonneg : 0 ≤ number) (even : whole % 2 = 0) :
    halfEven number < whole ↔ number < whole - 1 / 2 := by
  constructor
  · intro less
    by_contra notBelow
    rw [not_lt] at notBelow
    obtain _ | before := whole
    · exact Nat.not_lt_zero _ less
    · rw [Nat.cast_add, Nat.cast_one] at notBelow
      have half : halfEven ((before : ℝ) + 1 / 2) = before + before % 2 := halfEven_of_eq_half rfl
      have above : (before : ℝ) + 1 / 2 ≤ number := by linarith
      have mono := halfEven_mono (by positivity) above
      omega
  · intro below
    have error := (abs_le.mp (abs_halfEven_sub_le nonneg)).2
    have less : (halfEven number : ℝ) < whole := by linarith
    exact_mod_cast less

/-- The same above: an even number attracts the half above it too. -/
theorem lt_halfEven_iff_of_even (nonneg : 0 ≤ number) (even : whole % 2 = 0) :
    whole < halfEven number ↔ whole + 1 / 2 < number := by
  constructor
  · intro greater
    by_contra notAbove
    rw [not_lt] at notAbove
    have half : halfEven ((whole : ℝ) + 1 / 2) = whole + whole % 2 := halfEven_of_eq_half rfl
    have mono := halfEven_mono nonneg notAbove
    omega
  · intro above
    have error := (abs_le.mp (abs_halfEven_sub_le nonneg)).1
    have greater : (whole : ℝ) < halfEven number := by linarith
    exact_mod_cast greater

/-! ### Quotients -/

theorem fraction_lt_half_iff {rest divisor : ℕ} (positive : 0 < divisor) :
    (rest : ℝ) / divisor < 1 / 2 ↔ 2 * rest < divisor := by
  rw [div_lt_iff₀ (by exact_mod_cast positive), ← Nat.cast_lt (α := ℝ), Nat.cast_mul,
    Nat.cast_ofNat]
  constructor <;> intro less <;> linarith

theorem fraction_eq_half_iff {rest divisor : ℕ} (positive : 0 < divisor) :
    (rest : ℝ) / divisor = 1 / 2 ↔ 2 * rest = divisor := by
  have notZero : (divisor : ℝ) ≠ 0 := by exact_mod_cast positive.ne'
  rw [div_eq_iff notZero, ← Nat.cast_inj (R := ℝ), Nat.cast_mul, Nat.cast_ofNat]
  constructor <;> intro equal <;> linarith

theorem half_lt_fraction_iff {rest divisor : ℕ} (positive : 0 < divisor) :
    (1 : ℝ) / 2 < rest / divisor ↔ divisor < 2 * rest := by
  rw [lt_div_iff₀ (by exact_mod_cast positive), ← Nat.cast_lt (α := ℝ), Nat.cast_mul,
    Nat.cast_ofNat]
  constructor <;> intro less <;> linarith

theorem cast_div_eq (dividend : ℕ) {divisor : ℕ} (positive : 0 < divisor) :
    (dividend : ℝ) / divisor = (dividend / divisor : ℕ) + (dividend % divisor : ℕ) / divisor := by
  have divisorPositive : (0 : ℝ) < divisor := by exact_mod_cast positive
  have split : (dividend : ℝ) = (dividend / divisor : ℕ) * divisor + (dividend % divisor : ℕ) := by
    exact_mod_cast (Nat.div_add_mod' dividend divisor).symm
  calc (dividend : ℝ) / divisor
      = ((dividend / divisor : ℕ) * divisor + (dividend % divisor : ℕ)) / divisor := by rw [← split]
    _ = (dividend / divisor : ℕ) + (dividend % divisor : ℕ) / divisor := by
      rw [add_div, mul_div_cancel_right₀ _ divisorPositive.ne']

/-- The rounded quotient of two whole numbers. -/
def nearestQuotient (dividend divisor : ℕ) : ℕ :=
  let whole := dividend / divisor
  let rest := dividend % divisor
  if 2 * rest < divisor then whole
  else if 2 * rest = divisor then whole + whole % 2
  else whole + 1

theorem halfEven_div (dividend : ℕ) {divisor : ℕ} (positive : 0 < divisor) :
    halfEven (dividend / divisor) = nearestQuotient dividend divisor := by
  have nonneg : (0 : ℝ) ≤ (dividend % divisor : ℕ) / divisor := by positivity
  have lessThanOne : ((dividend % divisor : ℕ) : ℝ) / divisor < 1 :=
    (div_lt_one (by exact_mod_cast positive)).mpr (by exact_mod_cast Nat.mod_lt _ positive)
  rw [cast_div_eq dividend positive]
  unfold nearestQuotient
  dsimp only
  split_ifs with less equal
  · have lessThanHalf := (fraction_lt_half_iff positive).mpr less
    exact halfEven_of_lt_half (by linarith) (by linarith)
  · rw [(fraction_eq_half_iff positive).mpr equal]
    exact halfEven_of_eq_half rfl
  · have greater : divisor < 2 * (dividend % divisor) := by omega
    have moreThanHalf := (half_lt_fraction_iff positive).mpr greater
    exact halfEven_of_half_lt (by linarith) (by linarith)

end HalfEven

/-! ### Whole parts with residual bits -/

/-- The number whose whole part is the mantissa, and for which the bits say whether its fraction is
at least a half and whether more than that is left of it. -/
structure Tracks (extended : ExtendedMantissa) (number : ℝ) : Prop where
  low : extended.mantissa ≤ number
  high : number < extended.mantissa + 1
  half : extended.roundBit = true ↔ extended.mantissa + 1 / 2 ≤ number
  rest : extended.stickyBit = true ↔
    number ≠ extended.mantissa ∧ number ≠ extended.mantissa + 1 / 2

section Tracks

variable {extended : ExtendedMantissa} {number : ℝ}

theorem tracks_exact (whole : ℕ) :
    Tracks (ExtendedMantissa.ofMantissaAndAccuracy whole .exact) whole := by
  refine ⟨le_rfl, by simp [ExtendedMantissa.ofMantissaAndAccuracy], ?_, ?_⟩
  · simp [ExtendedMantissa.ofMantissaAndAccuracy]
  · simp [ExtendedMantissa.ofMantissaAndAccuracy]

theorem tracks_fraction (whole : ℕ) {rest divisor : ℕ} (below : rest < divisor) :
    Tracks (ExtendedMantissa.ofMantissaAndAccuracy whole (accuracyOfFraction rest divisor))
      (whole + rest / divisor) := by
  have divisorPositive : 0 < divisor := Nat.zero_lt_of_lt below
  have lessThanOne : (rest : ℝ) / divisor < 1 :=
    (div_lt_one (by exact_mod_cast divisorPositive)).mpr (by exact_mod_cast below)
  unfold accuracyOfFraction
  by_cases isZero : rest = 0
  · rw [if_pos isZero, isZero, Nat.cast_zero, zero_div, add_zero]
    exact tracks_exact whole
  · have fractionPositive : (0 : ℝ) < rest / divisor :=
      div_pos (by exact_mod_cast Nat.pos_of_ne_zero isZero) (by exact_mod_cast divisorPositive)
    rw [if_neg isZero]
    rcases lt_trichotomy (2 * rest) divisor with less | equal | greater
    · have lessThanHalf := (fraction_lt_half_iff divisorPositive).mpr less
      rw [Nat.compare_eq_lt.mpr less]
      change Tracks ⟨whole, false, true⟩ _
      exact ⟨by linarith, by linarith, iff_of_false Bool.false_ne_true (by linarith),
        iff_of_true rfl ⟨by linarith, by linarith⟩⟩
    · have isHalf := (fraction_eq_half_iff divisorPositive).mpr equal
      rw [Nat.compare_eq_eq.mpr equal, isHalf]
      change Tracks ⟨whole, true, false⟩ _
      exact ⟨by linarith, by linarith, iff_of_true rfl le_rfl,
        iff_of_false Bool.false_ne_true fun residue => residue.2 rfl⟩
    · have moreThanHalf := (half_lt_fraction_iff divisorPositive).mpr greater
      rw [Nat.compare_eq_gt.mpr greater]
      change Tracks ⟨whole, true, true⟩ _
      exact ⟨by linarith, by linarith, iff_of_true rfl (by linarith),
        iff_of_true rfl ⟨by linarith, by linarith⟩⟩

/-- A whole quotient, with the accuracy that its remainder gives it. -/
theorem tracks_quotient (dividend : ℕ) {divisor : ℕ} (positive : 0 < divisor) :
    Tracks (ExtendedMantissa.ofMantissaAndAccuracy (dividend / divisor)
      (accuracyOfFraction (dividend % divisor) divisor)) (dividend / divisor : ℝ) := by
  rw [cast_div_eq dividend positive]
  exact tracks_fraction _ (Nat.mod_lt _ positive)

theorem Tracks.residue_iff (tracks : Tracks extended number) :
    (extended.roundBit || extended.stickyBit) = true ↔ number ≠ extended.mantissa := by
  rw [Bool.or_eq_true, tracks.half, tracks.rest]
  constructor
  · rintro (half | ⟨notWhole, -⟩)
    · intro whole
      linarith
    · exact notWhole
  · intro notWhole
    by_cases half : (extended.mantissa : ℝ) + 1 / 2 ≤ number
    · exact .inl half
    · refine .inr ⟨notWhole, ?_⟩
      intro equal
      exact half equal.ge

theorem Tracks.shiftRightOne (tracks : Tracks extended number) :
    Tracks extended.shiftRightOne (number / 2) := by
  have split : (extended.mantissa : ℝ) =
      2 * (extended.mantissa / 2 : ℕ) + (extended.mantissa % 2 : ℕ) := by
    exact_mod_cast (Nat.div_add_mod extended.mantissa 2).symm
  have low := tracks.low
  have high := tracks.high
  have residue := tracks.residue_iff
  unfold ExtendedMantissa.shiftRightOne
  rcases Nat.mod_two_eq_zero_or_one extended.mantissa with even | odd
  · rw [even, Nat.cast_zero] at split
    refine ⟨by dsimp only; linarith, by dsimp only; linarith, ?_, ?_⟩
    · simp only [even, bne_self_eq_false, Bool.false_eq_true, false_iff]
      linarith
    · dsimp only
      rw [residue]
      constructor
      · intro notWhole
        constructor
        · intro equal
          exact notWhole (by linarith)
        · intro equal
          linarith
      · rintro ⟨notWhole, -⟩ equal
        exact notWhole (by linarith)
  · rw [odd, Nat.cast_one] at split
    refine ⟨by dsimp only; linarith, by dsimp only; linarith, ?_, ?_⟩
    · simp only [odd]
      exact iff_of_true (by decide) (by linarith)
    · dsimp only
      rw [residue]
      constructor
      · intro notWhole
        constructor
        · intro equal
          linarith
        · intro equal
          exact notWhole (by linarith)
      · rintro ⟨-, notHalf⟩ equal
        exact notHalf (by linarith)

theorem Tracks.shiftRight (tracks : Tracks extended number) (shift : ℕ) :
    Tracks (extended >>> shift) (number / 2 ^ shift) := by
  induction shift with
  | zero =>
      rw [pow_zero, div_one]
      exact tracks
  | succ shift inductionHypothesis =>
      rw [pow_succ, ← div_div]
      exact inductionHypothesis.shiftRightOne

theorem Tracks.roundedMantissa_eq (tracks : Tracks extended number) :
    extended.roundedMantissa = halfEven number := by
  obtain ⟨low, high, half, rest⟩ := tracks
  obtain ⟨whole, roundBit, stickyBit⟩ := extended
  dsimp only at low high half rest
  cases roundBit with
  | false =>
      have below : number < whole + 1 / 2 := by simpa using half
      rw [halfEven_of_lt_half low below]
      cases stickyBit <;> rfl
  | true =>
      have above : whole + 1 / 2 ≤ number := by simpa using half
      cases stickyBit with
      | false =>
          have middle : number = whole + 1 / 2 := by
            by_contra notHalf
            exact Bool.false_ne_true (rest.mpr ⟨fun equal => by linarith, notHalf⟩)
          rw [halfEven_of_eq_half middle]
          rfl
      | true =>
          rw [halfEven_of_half_lt (above.lt_of_ne' (rest.mp rfl).2) high]
          rfl

end Tracks

end LogLinear.Binary64
