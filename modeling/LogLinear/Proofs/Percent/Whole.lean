import LogLinear.Proofs.Percent.Share

/-!
Contract: the computed percentage of a total itself, which is not always 100.

Owns:
- the significand of a total, computed on whole numbers;
- the totals whose percentage comes out below 100 and those for which it comes out above, by tests
  on the significand; none of them has less than 49 bits.

Does not own: what a traversal makes of it. `LogLinear.Proofs.Traversal.Closing` has that.
-/

namespace LogLinear.Histogram

open Binary64

/-- The 53 bits that are kept of a total. -/
def significand (total : Nat) : Nat :=
  nearestQuotient (total * 2 ^ (52 - total.log2)) (2 ^ (total.log2 - 52))

/-- The totals which are not quite 100 percent of themselves.

A hundred times such a total has seven bits more than are kept, which are rounded off downwards. The
quotient then is nearer to the number before 100 than to 100. -/
def FallsShort (total : Nat) : Prop :=
  let hundredfold := 100 * significand total
  let lost := hundredfold % 128
  2 ^ 59 ≤ hundredfold ∧ (lost < 64 ∨ lost = 64 ∧ hundredfold / 128 % 2 = 0) ∧
    significand total < 2 ^ 47 * lost

instance (total : Nat) : Decidable (FallsShort total) := by
  unfold FallsShort
  infer_instance

/-- The totals which are a little more than 100 percent of themselves: the seven bits are rounded off
upwards, and the quotient is nearer to the number after 100. -/
def Exceeds (total : Nat) : Prop :=
  let hundredfold := 100 * significand total
  let lost := hundredfold % 128
  2 ^ 59 ≤ hundredfold ∧ (64 < lost ∨ lost = 64 ∧ hundredfold / 128 % 2 = 1) ∧
    significand total < 2 ^ 47 * (128 - lost)

instance (total : Nat) : Decidable (Exceeds total) := by
  unfold Exceeds
  infer_instance

variable {total : ℕ}

/-- Totals with few enough bits have a hundredfold that is not rounded at all. -/
theorem lost_eq_zero_of_lt (small : total < 2 ^ 48) : 100 * significand total % 128 = 0 := by
  have log : total.log2 < 48 := by
    rcases total.eq_zero_or_pos with isZero | positive
    · rw [isZero]
      decide
    · exact (Nat.log2_lt positive.ne').mpr small
  have significandEq : significand total = total * 2 ^ (47 - total.log2) * 2 ^ 5 := by
    have excess : total.log2 - 52 = 0 := by omega
    have shift : 52 - total.log2 = 47 - total.log2 + 5 := by omega
    unfold significand nearestQuotient
    rw [excess, shift, pow_add, ← mul_assoc]
    simp [Nat.mod_one]
  rw [significandEq]
  omega

theorem not_fallsShort_of_lt (small : total < 2 ^ 48) : ¬ FallsShort total := by
  rintro ⟨-, -, less⟩
  rw [lost_eq_zero_of_lt small, mul_zero] at less
  exact Nat.not_lt_zero _ less

theorem not_exceeds_of_lt (small : total < 2 ^ 48) : ¬ Exceeds total := by
  rintro ⟨-, upwards, -⟩
  rw [lost_eq_zero_of_lt small] at upwards
  omega

/-! ### The significand -/

theorem scaled_bounds (positive : 0 < total) :
    2 ^ (52 + (total.log2 - 52)) ≤ total * 2 ^ (52 - total.log2) ∧
    total * 2 ^ (52 - total.log2) < 2 ^ (53 + (total.log2 - 52)) := by
  have low : 2 ^ total.log2 ≤ total := Nat.log2_self_le positive.ne'
  have high : total < 2 ^ (total.log2 + 1) := Nat.lt_log2_self
  have lowSplit : 2 ^ (52 + (total.log2 - 52)) = 2 ^ total.log2 * 2 ^ (52 - total.log2) := by
    rw [← pow_add]
    congr 1
    omega
  have highSplit : 2 ^ (53 + (total.log2 - 52)) =
      2 ^ (total.log2 + 1) * 2 ^ (52 - total.log2) := by
    rw [← pow_add]
    congr 1
    omega
  rw [lowSplit, highSplit]
  exact ⟨Nat.mul_le_mul_right _ low, Nat.mul_lt_mul_of_pos_right high (Nat.two_pow_pos _)⟩

theorem nearest_natCast (positive : 0 < total) :
    nearest total = significand total * 2 ^ ((total.log2 : ℤ) - 52) := by
  obtain ⟨low, high⟩ := scaled_bounds positive
  have scaled : (total : ℝ) =
      (total * 2 ^ (52 - total.log2) : ℕ) * 2 ^ (-(52 - total.log2 : ℕ) : ℤ) := by
    rw [zpow_neg, zpow_natCast]
    push_cast
    rw [mul_assoc, mul_inv_cancel₀ (by positivity), mul_one]
  have exponents : (2 : ℝ) ^ (total.log2 - 52) * 2 ^ (-(52 - total.log2 : ℕ) : ℤ) =
      2 ^ ((total.log2 : ℤ) - 52) := by
    rw [← zpow_natCast, ← two_zpow_add]
    congr 1
    omega
  calc nearest total
      = nearest ((total * 2 ^ (52 - total.log2) : ℕ) * 2 ^ (-(52 - total.log2 : ℕ) : ℤ)) := by
        rw [← scaled]
    _ = significand total * 2 ^ (total.log2 - 52) * 2 ^ (-(52 - total.log2 : ℕ) : ℤ) :=
        nearest_whole low high (by omega)
    _ = significand total * 2 ^ ((total.log2 : ℤ) - 52) := by rw [mul_assoc, exponents]

theorem significand_bounds (positive : 0 < total) :
    2 ^ 52 ≤ significand total ∧ significand total ≤ 2 ^ 53 := by
  obtain ⟨low, high⟩ := scaled_bounds positive
  unfold significand
  generalize total * 2 ^ (52 - total.log2) = scaled at *
  generalize total.log2 - 52 = excess at *
  rw [pow_add] at low high
  have quotientLow : 2 ^ 52 ≤ scaled / 2 ^ excess :=
    (Nat.le_div_iff_mul_le (Nat.two_pow_pos _)).mpr low
  have quotientHigh : scaled / 2 ^ excess < 2 ^ 53 :=
    (Nat.div_lt_iff_lt_mul (Nat.two_pow_pos _)).mpr high
  unfold nearestQuotient
  dsimp only
  split_ifs <;> omega

/-! ### The hundredfold -/

/-- A hundred times the significand, rounded to 53 bits. -/
def roundedHundredfold (total : Nat) : Nat :=
  let hundredfold := 100 * significand total
  if hundredfold < 2 ^ 59 then nearestQuotient hundredfold (2 ^ 6) * 2 ^ 6
  else nearestQuotient hundredfold (2 ^ 7) * 2 ^ 7

theorem nearest_hundredfold (positive : 0 < total) :
    nearest (100 * nearest total) = roundedHundredfold total * 2 ^ ((total.log2 : ℤ) - 52) := by
  obtain ⟨low, high⟩ := significand_bounds positive
  have hundredfold : 100 * nearest total =
      (100 * significand total : ℕ) * 2 ^ ((total.log2 : ℤ) - 52) := by
    rw [nearest_natCast positive]
    push_cast
    ring
  rw [hundredfold]
  unfold roundedHundredfold
  dsimp only
  split_ifs with small
  · rw [@nearest_whole _ (100 * significand total) 6 (by omega) small (by omega), Nat.cast_mul,
      Nat.cast_pow, Nat.cast_ofNat]
  · rw [@nearest_whole _ (100 * significand total) 7 (by omega) (by omega) (by omega), Nat.cast_mul,
      Nat.cast_pow, Nat.cast_ofNat]

theorem roundedHundredfold_bounds (total : ℕ) :
    100 * significand total ≤ roundedHundredfold total + 64 ∧
    roundedHundredfold total ≤ 100 * significand total + 64 := by
  unfold roundedHundredfold nearestQuotient
  dsimp only
  split_ifs <;> omega

/-! ### The quotient -/

section Quotient

variable {dividend divisor : ℕ} (low : 2 ^ 52 ≤ divisor) (near : 100 * divisor ≤ dividend + 64)
  (nearAbove : dividend ≤ 100 * divisor + 64)
include low near nearAbove

/-- Below 128 the numbers next to 100 are `2 ^ (-46)` away from it. -/
theorem nearest_quotient :
    nearest (dividend / divisor) = halfEven (2 ^ 46 * dividend / divisor) * 2 ^ (-46 : ℤ) := by
  have positive : (0 : ℝ) < divisor := by exact_mod_cast (Nat.two_pow_pos 52).trans_le low
  have place : lastPlace ((dividend : ℝ) / divisor) = -46 := by
    apply lastPlace_near_hundred
    · rw [le_div_iff₀ positive]
      have above : 64 * divisor ≤ dividend := by omega
      exact_mod_cast above
    · rw [div_lt_iff₀ positive]
      have below : dividend < 128 * divisor := by omega
      exact_mod_cast below
  have scaled : (dividend : ℝ) / divisor / 2 ^ (-46 : ℤ) = 2 ^ 46 * dividend / divisor := by
    rw [zpow_neg, div_inv_eq_mul, div_mul_eq_mul_div, mul_comm]
    norm_num
  rw [nearest, place, scaled]

theorem nearest_quotient_lt_hundred_iff :
    nearest (dividend / divisor) < 100 ↔ divisor + 2 ^ 47 * dividend < 2 ^ 47 * (100 * divisor) := by
  have positive : (0 : ℝ) < divisor := by exact_mod_cast (Nat.two_pow_pos 52).trans_le low
  have even : 100 * 2 ^ 46 % 2 = 0 := by decide
  calc nearest (dividend / divisor) < 100
      ↔ (halfEven (2 ^ 46 * dividend / divisor) : ℝ) < (100 * 2 ^ 46 : ℕ) := by
        rw [nearest_quotient low near nearAbove, zpow_neg, ← div_eq_mul_inv,
          div_lt_iff₀ (two_zpow_pos _)]
        norm_num
    _ ↔ 2 ^ 46 * dividend / divisor < ((100 * 2 ^ 46 : ℕ) : ℝ) - 1 / 2 := by
        rw [Nat.cast_lt, halfEven_lt_iff_of_even (by positivity) even]
    _ ↔ ((divisor + 2 ^ 47 * dividend : ℕ) : ℝ) < (2 ^ 47 * (100 * divisor) : ℕ) := by
        rw [div_lt_iff₀ positive]
        push_cast
        constructor <;> intro less <;> linarith
    _ ↔ divisor + 2 ^ 47 * dividend < 2 ^ 47 * (100 * divisor) := Nat.cast_lt

theorem hundred_lt_nearest_quotient_iff :
    100 < nearest (dividend / divisor) ↔ 2 ^ 47 * (100 * divisor) + divisor < 2 ^ 47 * dividend := by
  have positive : (0 : ℝ) < divisor := by exact_mod_cast (Nat.two_pow_pos 52).trans_le low
  have even : 100 * 2 ^ 46 % 2 = 0 := by decide
  calc 100 < nearest (dividend / divisor)
      ↔ ((100 * 2 ^ 46 : ℕ) : ℝ) < (halfEven (2 ^ 46 * dividend / divisor) : ℝ) := by
        rw [nearest_quotient low near nearAbove, zpow_neg, ← div_eq_mul_inv,
          lt_div_iff₀ (two_zpow_pos _)]
        norm_num
    _ ↔ ((100 * 2 ^ 46 : ℕ) : ℝ) + 1 / 2 < 2 ^ 46 * dividend / divisor := by
        rw [Nat.cast_lt, lt_halfEven_iff_of_even (by positivity) even]
    _ ↔ ((2 ^ 47 * (100 * divisor) + divisor : ℕ) : ℝ) < (2 ^ 47 * dividend : ℕ) := by
        rw [lt_div_iff₀ positive]
        push_cast
        constructor <;> intro less <;> linarith
    _ ↔ 2 ^ 47 * (100 * divisor) + divisor < 2 ^ 47 * dividend := Nat.cast_lt

end Quotient

theorem fallsShort_iff (positive : 0 < total) :
    FallsShort total ↔ significand total + 2 ^ 47 * roundedHundredfold total <
      2 ^ 47 * (100 * significand total) := by
  obtain ⟨low, high⟩ := significand_bounds positive
  unfold FallsShort roundedHundredfold nearestQuotient
  dsimp only
  split_ifs <;> omega

theorem exceeds_iff (positive : 0 < total) :
    Exceeds total ↔ 2 ^ 47 * (100 * significand total) + significand total <
      2 ^ 47 * roundedHundredfold total := by
  obtain ⟨low, high⟩ := significand_bounds positive
  unfold Exceeds roundedHundredfold nearestQuotient
  dsimp only
  split_ifs <;> omega

theorem share_self_eq (positive : 0 < total) :
    share total total = nearest ((roundedHundredfold total : ℝ) / significand total) := by
  rw [share, nearest_hundredfold positive, nearest_natCast positive,
    mul_div_mul_right _ _ (two_zpow_pos _).ne']

/-- The exact condition under which a total is less than 100 percent of itself. -/
theorem share_self_lt_hundred_iff (positive : 0 < total) :
    share total total < 100 ↔ FallsShort total := by
  obtain ⟨low, high⟩ := significand_bounds positive
  obtain ⟨near, nearAbove⟩ := roundedHundredfold_bounds total
  rw [share_self_eq positive, nearest_quotient_lt_hundred_iff low near nearAbove,
    fallsShort_iff positive]

/-- The exact condition under which a total is more than 100 percent of itself. -/
theorem hundred_lt_share_self_iff (positive : 0 < total) :
    100 < share total total ↔ Exceeds total := by
  obtain ⟨low, high⟩ := significand_bounds positive
  obtain ⟨near, nearAbove⟩ := roundedHundredfold_bounds total
  rw [share_self_eq positive, hundred_lt_nearest_quotient_iff low near nearAbove,
    exceeds_iff positive]

theorem share_self_eq_hundred_iff (positive : 0 < total) :
    share total total = 100 ↔ ¬ FallsShort total ∧ ¬ Exceeds total := by
  rw [← share_self_lt_hundred_iff positive, ← hundred_lt_share_self_iff positive, not_lt, not_lt,
    le_antisymm_iff, and_comm]

theorem hundred_le_percentOf_self_iff (positive : 0 < total) (word : total ≤ Word.max) :
    100.0 ≤ percentOf total total ↔ ¬ FallsShort total := by
  rw [denotes_hundred.le_iff (denotes_percentOf word positive word),
    ← share_self_lt_hundred_iff positive, not_lt]

example : ¬ 100.0 ≤ percentOf 360287970189641 360287970189641 := by decide +kernel

theorem percentOf_self_beq_hundred_iff (positive : 0 < total) (word : total ≤ Word.max) :
    (percentOf total total == 100.0) = true ↔ ¬ FallsShort total ∧ ¬ Exceeds total := by
  rw [(denotes_percentOf word positive word).beq_iff denotes_hundred,
    share_self_eq_hundred_iff positive]

/-- No percentage of a total is above that of the total itself. -/
theorem exceeds_of_hundred_lt_percentOf {count : ℕ} (inside : count ≤ total) (positive : 0 < total)
    (word : total ≤ Word.max) (above : 100.0 < percentOf count total) : Exceeds total := by
  rw [denotes_hundred.lt_iff (denotes_percentOf (inside.trans word) positive word)] at above
  exact (hundred_lt_share_self_iff positive).mp (above.trans_le (share_mono inside positive))

theorem hundred_lt_percentOf_self_iff (positive : 0 < total) (word : total ≤ Word.max) :
    100.0 < percentOf total total ↔ Exceeds total := by
  rw [denotes_hundred.lt_iff (denotes_percentOf word positive word),
    hundred_lt_share_self_iff positive]

example : 100.0 < percentOf 360287970189643 360287970189643 := by decide +kernel

end LogLinear.Histogram
