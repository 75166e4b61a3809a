import LogLinear.Proofs.Binary64.Arithmetic

/-!
Contract: conversions from machine numbers to words.

Owns:
- the whole part of a number as a word;
- the least word that is not below a number.

Both are capped at the largest word. Numbers below zero are left out.

Does not own: the conversion of words to numbers. `LogLinear.Proofs.Binary64.Arithmetic` has it.
-/

namespace LogLinear.Binary64

open Float.Model Float.Model.UnpackedFloat

theorem Tracks.mantissa_eq_floor {extended : ExtendedMantissa} {number : ℝ}
    (tracks : Tracks extended number) : extended.mantissa = ⌊number⌋₊ := by
  have nonneg : (0 : ℝ) ≤ extended.mantissa := Nat.cast_nonneg _
  exact ((Nat.floor_eq_iff (nonneg.trans tracks.low)).mpr ⟨tracks.low, tracks.high⟩).symm

/-- The bits below the point are shifted out. -/
theorem roundToInt_eq_floor (significand : ℕ) (exponent : ℤ) :
    roundToInt .positive significand exponent = ⌊(significand : ℝ) * 2 ^ exponent⌋₊ := by
  unfold roundToInt decreaseExponent shiftToExponent
  dsimp only
  generalize isRaise : (exponent - 0).toNat = raise
  generalize isShift : (0 - (exponent - raise)).toNat = shift
  have value : ((significand <<< raise : ℕ) : ℝ) / 2 ^ shift = significand * 2 ^ exponent := by
    rw [← shiftLeft_value significand raise exponent, show exponent - raise = -(shift : ℤ) by omega,
      zpow_neg, zpow_natCast, div_eq_mul_inv]
  have tracks := (tracks_exact (significand <<< raise)).shiftRight shift
  rw [value] at tracks
  rw [← tracks.mantissa_eq_floor]
  rfl

theorem toNat_ofNatClamp (number : ℕ) : (UInt64.ofNatClamp number).toNat = Word.cap number := by
  unfold UInt64.ofNatClamp
  split
  · rename_i below
    exact (Word.cap_of_le (Nat.le_of_lt_succ below)).symm
  · rename_i beyond
    exact (Word.cap_of_ge (by unfold UInt64.size Word.max at *; omega)).symm

theorem toInt_eq_floor {unpacked : UnpackedFloat} {value : ℝ} (depicts : Depicts unpacked value)
    (low high : ℤ) : unpacked.toInt low high = ⌊value⌋₊ := by
  cases depicts with
  | zero sign =>
      rw [Nat.floor_zero]
      rfl
  | @finite significand exponent => exact roundToInt_eq_floor significand exponent

/-- A number with a fraction has bits below the point, so it has few above. -/
theorem Depicts.lt_of_ne_floor {unpacked : UnpackedFloat} {value : ℝ}
    (depicts : Depicts unpacked value) (notWhole : value ≠ ⌊value⌋₊) : value < 2 ^ 53 := by
  cases depicts with
  | zero sign => positivity
  | @finite significand exponent _ narrow =>
      have fraction : exponent < 0 := by
        by_contra whole
        obtain ⟨shift, rfl⟩ := Int.eq_ofNat_of_zero_le (not_lt.mp whole)
        apply notWhole
        rw [mul_two_zpow_natCast, Nat.floor_natCast]
      have narrowReal : (significand : ℝ) < 2 ^ 53 := by exact_mod_cast narrow
      calc (significand : ℝ) * 2 ^ exponent ≤ significand * 2 ^ (0 : ℤ) :=
            mul_le_mul_of_nonneg_left (two_zpow_le fraction.le) (Nat.cast_nonneg _)
        _ = significand := by rw [zpow_zero, mul_one]
        _ < 2 ^ 53 := narrowReal

variable {number : Float} {value : ℝ} (denotes : Denotes number value)
include denotes

theorem truncate_eq : Word.truncate number = Word.cap ⌊value⌋₊ := by
  have whole : number.toModel.unpack.toInt 0 (UInt64.size - 1) = ⌊value⌋₊ :=
    toInt_eq_floor denotes _ _
  change (UInt64.ofNatClamp (number.toModel.unpack.toInt 0 (UInt64.size - 1)).toNat).toNat = _
  rw [whole, Int.toNat_natCast, toNat_ofNatClamp]

/-- A number is compared with its whole part, which as a word converts back to itself unless there is
no fraction to be found. -/
theorem roundUp_eq : Word.roundUp number = Word.cap ⌈value⌉₊ := by
  have nonneg := denotes.nonneg
  have truncated := truncate_eq denotes
  have floorLe := Nat.floor_le nonneg
  rw [Word.roundUp, truncated]
  -- Above the word range it does not matter how the comparison comes out.
  by_cases large : Word.max ≤ ⌊value⌋₊
  · rw [Word.cap_of_ge large, Word.cap_of_ge (large.trans (Nat.floor_le_ceil value)),
      Word.cap_of_ge (Nat.le_succ _), ite_self]
  · have word : ⌊value⌋₊ ≤ Word.max := (Nat.lt_of_not_le large).le
    rw [Word.cap_of_le word]
    by_cases isWhole : value = ⌊value⌋₊
    · have notLess : ¬ Word.toFloat ⌊value⌋₊ < number := by
        rw [(denotes_toFloat word).lt_iff denotes, ← isWhole, denotes.nearest_eq]
        exact lt_irrefl value
      have ceiling : ⌈value⌉₊ = ⌊value⌋₊ := by
        rw [isWhole, Nat.ceil_natCast, Nat.floor_natCast]
      rw [if_neg notLess, ceiling, Word.cap_of_le word]
    · have less : Word.toFloat ⌊value⌋₊ < number := by
        have narrow : ⌊value⌋₊ < 2 ^ 53 := by
          exact_mod_cast floorLe.trans_lt (Depicts.lt_of_ne_floor denotes isWhole)
        rw [(denotes_toFloat word).lt_iff denotes, nearest_natCast_eq_self narrow]
        exact floorLe.lt_of_ne' isWhole
      have ceiling : ⌈value⌉₊ = ⌊value⌋₊ + 1 := by
        rw [Nat.ceil_eq_iff (Nat.add_one_ne_zero _), Nat.add_sub_cancel]
        exact ⟨floorLe.lt_of_ne' isWhole, by exact_mod_cast (Nat.lt_floor_add_one value).le⟩
      rw [if_pos less, ceiling]

end LogLinear.Binary64
