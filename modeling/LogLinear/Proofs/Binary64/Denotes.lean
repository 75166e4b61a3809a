import LogLinear.Proofs.Binary64.Nearest
import Mathlib

/-!
Contract: binary64 numbers and the real numbers that they stand for.

Owns:
- the value of an unpacked number in canonical form, and of a machine number;
- packing, which loses nothing of a number in canonical form, and makes it infinite if its exponent
  is too large;
- comparisons of machine numbers as comparisons of their values.

Infinities, NaN and numbers below zero have no value here. `LogLinear.Proofs.Binary64.Infinite` gives
infinity one.

Does not own: arithmetic. `LogLinear.Proofs.Binary64.Arithmetic` has it.
-/

namespace LogLinear.Binary64

open Float.Model Float.Model.UnpackedFloat

/-- The value of an unpacked number in canonical form which is not below zero. -/
inductive Depicts : UnpackedFloat → ℝ → Prop
  | zero (sign : Sign) : Depicts (.zero sign) 0
  | finite {significand : ℕ} {exponent : ℤ} (positive : 0 < significand)
      (narrow : significand < 2 ^ 53) (lowest : -1074 ≤ exponent)
      (full : 2 ^ 52 ≤ significand ∨ exponent = -1074) (highest : exponent ≤ 971) :
      Depicts (.finite .positive significand exponent positive) (significand * 2 ^ exponent)

/-- The value of an unpacked number in canonical form with an exponent that need not fit. -/
inductive Canonical : UnpackedFloat → ℝ → Prop
  | zero (sign : Sign) : Canonical (.zero sign) 0
  | finite {significand : ℕ} {exponent : ℤ} (positive : 0 < significand)
      (narrow : significand < 2 ^ 53) (lowest : -1074 ≤ exponent)
      (full : 2 ^ 52 ≤ significand ∨ exponent = -1074) :
      Canonical (.finite .positive significand exponent positive) (significand * 2 ^ exponent)

/-- The value of a machine number which is not below zero. -/
def Denotes (number : Float) (value : ℝ) : Prop := Depicts number.toModel.unpack value

theorem Depicts.nonneg {unpacked : UnpackedFloat} {value : ℝ} (depicts : Depicts unpacked value) :
    0 ≤ value := by
  cases depicts with
  | zero sign => exact le_rfl
  | finite => exact mul_nonneg (Nat.cast_nonneg _) (two_zpow_pos _).le

theorem Depicts.lt_two_pow {unpacked : UnpackedFloat} {value : ℝ}
    (depicts : Depicts unpacked value) : value < 2 ^ 1024 := by
  cases depicts with
  | zero sign => positivity
  | @finite significand exponent _ narrow _ _ highest =>
      have narrowReal : (significand : ℝ) < 2 ^ 53 := by exact_mod_cast narrow
      calc (significand : ℝ) * 2 ^ exponent < 2 ^ 53 * 2 ^ exponent :=
            mul_lt_mul_of_pos_right narrowReal (two_zpow_pos _)
        _ ≤ 2 ^ 53 * 2 ^ (971 : ℤ) :=
            mul_le_mul_of_nonneg_left (two_zpow_le highest) (by positivity)
        _ = 2 ^ 1024 := (two_zpow_add 53 971).symm

theorem Depicts.nearest_eq {unpacked : UnpackedFloat} {value : ℝ}
    (depicts : Depicts unpacked value) : nearest value = value := by
  cases depicts with
  | zero sign => exact nearest_zero
  | finite _ narrow lowest => exact nearest_eq_self narrow lowest

theorem exponent_le_of_lt {significand : ℕ} {exponent : ℤ}
    (full : 2 ^ 52 ≤ significand ∨ exponent = -1074)
    (bounded : significand * (2 : ℝ) ^ exponent < 2 ^ 1024) : exponent ≤ 971 := by
  rcases full with full | rfl
  · have fullReal : (2 : ℝ) ^ 52 ≤ significand := by exact_mod_cast full
    have less : (2 : ℝ) ^ (52 + exponent) < 2 ^ (1024 : ℤ) := by
      rw [two_zpow_add]
      exact (mul_le_mul_of_nonneg_right fullReal (two_zpow_pos _).le).trans_lt
        (by exact_mod_cast bounded)
    rw [zpow_lt_zpow_iff_right₀ one_lt_two] at less
    omega
  · decide

theorem Canonical.depicts {unpacked : UnpackedFloat} {value : ℝ}
    (canonical : Canonical unpacked value) (bounded : value < 2 ^ 1024) :
    Depicts unpacked value := by
  cases canonical with
  | zero sign => exact .zero sign
  | finite positive narrow lowest full =>
      exact .finite positive narrow lowest full (exponent_le_of_lt full bounded)

theorem Denotes.nonneg {number : Float} {value : ℝ} (denotes : Denotes number value) : 0 ≤ value :=
  Depicts.nonneg denotes

theorem Denotes.lt_two_pow {number : Float} {value : ℝ} (denotes : Denotes number value) :
    value < 2 ^ 1024 :=
  Depicts.lt_two_pow denotes

theorem Denotes.nearest_eq {number : Float} {value : ℝ} (denotes : Denotes number value) :
    nearest value = value :=
  Depicts.nearest_eq denotes

/-- Rounding does not carry a number beyond a machine number that bounds it. -/
theorem Denotes.nearest_le {number : Float} {value bounded : ℝ} (denotes : Denotes number value)
    (nonneg : 0 ≤ bounded) (ordered : bounded ≤ value) : nearest bounded ≤ value :=
  denotes.nearest_eq ▸ nearest_mono nonneg ordered

theorem Denotes.le_nearest {number : Float} {value bounded : ℝ} (denotes : Denotes number value)
    (ordered : value ≤ bounded) : value ≤ nearest bounded :=
  denotes.nearest_eq ▸ nearest_mono denotes.nonneg ordered

/-! ### Packing -/

theorem unpackSign_packComponents {format : Format} (sign : Sign)
    (exponent : BitVec format.exponentBits)
    (mantissa : BitVec format.mantissaBitsWithoutImplicit) :
    unpackSign (packComponents format sign exponent mantissa) = sign.toBitVec := by
  ext index below
  obtain rfl : index = 0 := by omega
  simp [unpackSign, packComponents, BitVec.getLsbD_eq_getElem, BitVec.getLsbD_append,
    BitVec.getElem_append]

theorem ofBitVec_toBitVec (sign : Sign) : Sign.ofBitVec sign.toBitVec = sign := by
  cases sign <;> rfl

theorem toNat_leading (mantissa : BitVec 52) :
    (1#1 ++ mantissa).toNat = 2 ^ 52 + mantissa.toNat := by
  have leading : (1#1).toNat <<< 52 = 2 ^ 52 := rfl
  rw [BitVec.toNat_append, ← Nat.shiftLeft_add_eq_or_of_lt mantissa.isLt, leading]

theorem toNat_ofNat_significand {significand : ℕ} (narrow : significand < 2 ^ 53)
    (full : 2 ^ 52 ≤ significand) : (1#1 ++ BitVec.ofNat 52 significand).toNat = significand := by
  have remainder : (BitVec.ofNat 52 significand).toNat = significand - 2 ^ 52 := by
    rw [BitVec.toNat_ofNat, Nat.mod_eq_sub_mod full, Nat.mod_eq_of_lt (by omega)]
  rw [toNat_leading, remainder]
  omega

theorem toNat_ofNat_exponent {biased : ℕ} (high : biased < 2047) :
    (BitVec.ofNat 11 biased).toNat = biased := by
  rw [BitVec.toNat_ofNat, Nat.mod_eq_of_lt (by omega)]

theorem ofNat_exponent_ne {biased : ℕ} (low : 0 < biased) (high : biased < 2047) :
    BitVec.ofNat 11 biased ≠ 0#11 ∧ BitVec.ofNat 11 biased ≠ -1#11 := by
  have bits := toNat_ofNat_exponent high
  constructor
  · intro isZero
    rw [isZero] at bits
    exact low.ne bits
  · intro isOnes
    rw [isOnes] at bits
    exact high.ne' bits

theorem pack_normal {significand biased : ℕ} {exponent : ℤ} (positive : 0 < significand)
    (narrow : significand < 2 ^ 53) (full : 2 ^ 52 ≤ significand)
    (isBiased : exponent + 1075 = biased) (high : biased < 2047) :
    UnpackedFloat.pack Format.binary64 (.finite .positive significand exponent positive) =
      packComponents Format.binary64 .positive (BitVec.ofNat 11 biased)
        (BitVec.ofNat 52 significand) := by
  have log : significand.log2 = 52 := (Nat.log2_eq_iff positive.ne').mpr ⟨full, narrow⟩
  have biasedNat : (exponent + 1023 + 52).toNat = biased := by omega
  change (if 2 ^ 11 ≤ (exponent + 1023 + 52).toNat + 1 then _ else if significand.log2 + 1 = 53
    then packComponents Format.binary64 .positive (BitVec.ofNat 11 (exponent + 1023 + 52).toNat)
      (BitVec.ofNat 52 significand) else _) = _
  rw [biasedNat, if_neg (by omega), if_pos (by rw [log])]

theorem unpack_pack_normal {significand : ℕ} {exponent : ℤ} (positive : 0 < significand)
    (narrow : significand < 2 ^ 53) (full : 2 ^ 52 ≤ significand) (lowest : -1074 ≤ exponent)
    (highest : exponent ≤ 971) :
    (Float.Model.pack (.finite .positive significand exponent positive)).unpack =
      .finite .positive significand exponent positive := by
  obtain ⟨biased, isBiased⟩ := Int.eq_ofNat_of_zero_le (show 0 ≤ exponent + 1075 by omega)
  have high : biased < 2047 := by omega
  obtain ⟨notZero, notOnes⟩ := ofNat_exponent_ne (show 0 < biased by omega) high
  change UnpackedFloat.unpack Format.binary64 (UnpackedFloat.pack Format.binary64
    (.finite .positive significand exponent positive)) = _
  rw [pack_normal positive narrow full isBiased high]
  unfold UnpackedFloat.unpack
  simp only [unpackMantissa_packComponents, unpackExponent_packComponents,
    unpackSign_packComponents, ofBitVec_toBitVec]
  rw [if_neg notOnes, if_neg notZero]
  congr 1
  · exact toNat_ofNat_significand narrow full
  · rw [toNat_ofNat_exponent high]
    change (biased : ℤ) - (1023 + 52) = exponent
    omega

theorem pack_subnormal {significand : ℕ} (positive : 0 < significand)
    (narrow : significand < 2 ^ 52) :
    UnpackedFloat.pack Format.binary64 (.finite .positive significand (-1074) positive) =
      packComponents Format.binary64 .positive 0#11 (BitVec.ofNat 52 significand) := by
  have notFull : ¬ significand.log2 + 1 = Format.binary64.mantissaBits := by
    have below : significand.log2 < 52 := (Nat.log2_lt positive.ne').mpr narrow
    change ¬ significand.log2 + 1 = 53
    omega
  rw [UnpackedFloat.pack]
  dsimp only
  rw [if_neg (by decide), if_neg notFull]

theorem unpack_pack_subnormal {significand : ℕ} (positive : 0 < significand)
    (narrow : significand < 2 ^ 52) :
    (Float.Model.pack (.finite .positive significand (-1074) positive)).unpack =
      .finite .positive significand (-1074) positive := by
  have bits : (BitVec.ofNat 52 significand).toNat = significand := by
    rw [BitVec.toNat_ofNat, Nat.mod_eq_of_lt narrow]
  have notZero : BitVec.ofNat 52 significand ≠ 0#52 := by
    intro equal
    rw [equal] at bits
    exact positive.ne bits
  change UnpackedFloat.unpack Format.binary64 (UnpackedFloat.pack Format.binary64
    (.finite .positive significand (-1074) positive)) = _
  rw [pack_subnormal positive narrow]
  unfold UnpackedFloat.unpack
  simp only [unpackMantissa_packComponents, unpackExponent_packComponents,
    unpackSign_packComponents, ofBitVec_toBitVec]
  rw [if_neg (by decide), if_pos trivial, dif_neg notZero]
  congr 1

theorem Depicts.unpack_pack {unpacked : UnpackedFloat} {value : ℝ}
    (depicts : Depicts unpacked value) : (Float.Model.pack unpacked).unpack = unpacked := by
  cases depicts with
  | zero sign => cases sign <;> rfl
  | @finite significand exponent positive narrow lowest full highest =>
      by_cases isFull : 2 ^ 52 ≤ significand
      · exact unpack_pack_normal positive narrow isFull lowest highest
      · obtain rfl := full.resolve_left isFull
        exact unpack_pack_subnormal positive (by omega)

theorem Depicts.denotes {unpacked : UnpackedFloat} {value : ℝ} (depicts : Depicts unpacked value) :
    Denotes (Float.ofModel (Float.Model.pack unpacked)) value := by
  change Depicts (Float.Model.pack unpacked).unpack value
  rw [depicts.unpack_pack]
  exact depicts

/-- Packing does not look at the significand if the exponent is too large. -/
theorem Canonical.unpack_pack_of_le {unpacked : UnpackedFloat} {value : ℝ}
    (canonical : Canonical unpacked value) (beyond : 2 ^ 1024 ≤ value) :
    (Float.Model.pack unpacked).unpack = .infinity .positive := by
  have notDepicts : ¬ Depicts unpacked value := fun depicts => depicts.lt_two_pow.not_ge beyond
  cases canonical with
  | zero sign => exact absurd (.zero sign) notDepicts
  | @finite significand exponent positive narrow lowest full =>
      have tooLarge : 971 < exponent := by
        by_contra inside
        exact notDepicts (.finite positive narrow lowest full (not_lt.mp inside))
      have packed : UnpackedFloat.pack Format.binary64
          (.finite .positive significand exponent positive) =
            packedInfinity Format.binary64 .positive := by
        change (if 2 ^ 11 ≤ (exponent + 1023 + 52).toNat + 1 then _ else _) = _
        rw [if_pos (by omega)]
      change UnpackedFloat.unpack Format.binary64 (UnpackedFloat.pack Format.binary64
        (.finite .positive significand exponent positive)) = _
      rw [packed]
      rfl

/-! ### Unpacking -/

/-- Every machine number is in canonical form. -/
theorem canonical_of_unpack {number : Float} {sign : Sign} {significand : ℕ} {exponent : ℤ}
    {positive : 0 < significand}
    (isUnpacked : number.toModel.unpack = .finite sign significand exponent positive) :
    significand < 2 ^ 53 ∧ -1074 ≤ exponent ∧ (2 ^ 52 ≤ significand ∨ exponent = -1074) ∧
      exponent ≤ 971 := by
  change UnpackedFloat.unpack Format.binary64 number.toModel.toBits.toBitVec = _ at isUnpacked
  have narrow := (@unpackMantissa Format.binary64 number.toModel.toBits.toBitVec).isLt
  have inside := (@unpackExponent Format.binary64 number.toModel.toBits.toBitVec).isLt
  change _ < 2 ^ 52 at narrow
  change _ < 2 ^ 11 at inside
  unfold UnpackedFloat.unpack at isUnpacked
  dsimp only at isUnpacked
  split at isUnpacked
  next => split at isUnpacked <;> cases isUnpacked
  next notOnes =>
    have high := fun same => notOnes (BitVec.eq_of_toNat_eq same)
    change _ ≠ 2047 at high
    split at isUnpacked
    next isZero =>
      split at isUnpacked
      next => cases isUnpacked
      next =>
        cases isUnpacked
        rw [isZero]
        exact ⟨by omega, by decide, .inr rfl, by decide⟩
    next notZero =>
      have low := fun same => notZero (BitVec.eq_of_toNat_eq same)
      change _ ≠ 0 at low
      cases isUnpacked
      rw [toNat_leading]
      generalize (@unpackExponent Format.binary64 _).toNat = biased at *
      have bias : (Format.binary64.exponentBias : ℤ) = 1023 := rfl
      exact ⟨by omega, by omega, .inl (by omega), by omega⟩

/-! ### Comparisons -/

/-- Of two numbers in canonical form, the one with the greater exponent is the greater one. -/
theorem value_lt_of_exponent_lt {significand other : ℕ} {exponent otherExponent : ℤ}
    (narrow : significand < 2 ^ 53) (otherFull : 2 ^ 52 ≤ other)
    (less : exponent < otherExponent) :
    (significand : ℝ) * 2 ^ exponent < other * 2 ^ otherExponent := by
  have narrowReal : (significand : ℝ) < 2 ^ 53 := by exact_mod_cast narrow
  have fullReal : (2 : ℝ) ^ 52 ≤ other := by exact_mod_cast otherFull
  calc (significand : ℝ) * 2 ^ exponent < 2 ^ 53 * 2 ^ exponent :=
        mul_lt_mul_of_pos_right narrowReal (two_zpow_pos _)
    _ = 2 ^ 52 * 2 ^ (exponent + 1) := by
        rw [two_zpow_add, zpow_one]
        ring
    _ ≤ 2 ^ 52 * 2 ^ otherExponent :=
        mul_le_mul_of_nonneg_left (two_zpow_le less) (by positivity)
    _ ≤ other * 2 ^ otherExponent := mul_le_mul_of_nonneg_right fullReal (two_zpow_pos _).le

theorem Depicts.compare_eq {left right : UnpackedFloat} {leftValue rightValue : ℝ}
    (leftDepicts : Depicts left leftValue) (rightDepicts : Depicts right rightValue) :
    left.compare right = some (cmp leftValue rightValue) := by
  cases leftDepicts with
  | zero sign =>
      cases rightDepicts with
      | zero sign => rw [cmp_self_eq_eq]; rfl
      | finite positive =>
          rw [(cmp_eq_lt_iff _ _).mpr]
          · rfl
          · exact mul_pos (by exact_mod_cast positive) (two_zpow_pos _)
  | @finite significand exponent positive narrow _ full =>
      cases rightDepicts with
      | zero sign =>
          rw [(cmp_eq_gt_iff _ _).mpr]
          · rfl
          · exact mul_pos (by exact_mod_cast positive) (two_zpow_pos _)
      | @finite other otherExponent _ otherNarrow _ otherFull =>
          change some ((compare exponent otherExponent).then (compare significand other)) = _
          rcases lt_trichotomy exponent otherExponent with less | rfl | greater
          · have isFull := otherFull.resolve_right (by omega)
            rw [Int.compare_eq_lt.mpr less,
              (cmp_eq_lt_iff _ _).mpr (value_lt_of_exponent_lt narrow isFull less)]
            rfl
          · have values : cmp ((significand : ℝ) * 2 ^ exponent) (other * 2 ^ exponent) =
                compare significand other := by
              have cast : StrictMono (Nat.cast : ℕ → ℝ) := Nat.strictMono_cast
              rw [cmp_mul_pos_right (two_zpow_pos _), cast.cmp_map_eq, cmp_eq_compare]
            rw [values, Int.compare_eq_eq.mpr rfl]
            rfl
          · have isFull := full.resolve_right (by omega)
            rw [Int.compare_eq_gt.mpr greater,
              (cmp_eq_gt_iff _ _).mpr (value_lt_of_exponent_lt otherNarrow isFull greater)]
            rfl

section Comparison

variable {left right : Float} {leftValue rightValue : ℝ}

theorem Denotes.le_iff (leftDenotes : Denotes left leftValue)
    (rightDenotes : Denotes right rightValue) : left ≤ right ↔ leftValue ≤ rightValue := by
  have order := Depicts.compare_eq leftDenotes rightDenotes
  change decide ((left.toModel.unpack.compare right.toModel.unpack).any (·.isLE) = true) = true ↔ _
  rw [order, decide_eq_true_eq, Option.any_some]
  rcases lt_trichotomy leftValue rightValue with less | equal | greater
  · rw [(cmp_eq_lt_iff _ _).mpr less]
    exact iff_of_true rfl less.le
  · rw [(cmp_eq_eq_iff _ _).mpr equal]
    exact iff_of_true rfl equal.le
  · rw [(cmp_eq_gt_iff _ _).mpr greater]
    exact iff_of_false (by decide) greater.not_ge

theorem Denotes.lt_iff (leftDenotes : Denotes left leftValue)
    (rightDenotes : Denotes right rightValue) : left < right ↔ leftValue < rightValue := by
  have order := Depicts.compare_eq leftDenotes rightDenotes
  change decide ((left.toModel.unpack.compare right.toModel.unpack == some .lt) = true) = true ↔ _
  rw [order, decide_eq_true_eq, beq_iff_eq, Option.some_inj, cmp_eq_lt_iff]

theorem Denotes.beq_iff (leftDenotes : Denotes left leftValue)
    (rightDenotes : Denotes right rightValue) :
    (left == right) = true ↔ leftValue = rightValue := by
  have order := Depicts.compare_eq leftDenotes rightDenotes
  change (left.toModel.unpack.compare right.toModel.unpack == some .eq) = true ↔ _
  rw [order, beq_iff_eq, Option.some_inj, cmp_eq_eq_iff]

theorem Denotes.bne_iff (leftDenotes : Denotes left leftValue)
    (rightDenotes : Denotes right rightValue) :
    (left != right) = true ↔ leftValue ≠ rightValue := by
  rw [bne, Bool.not_eq_true', ← Bool.not_eq_true, leftDenotes.beq_iff rightDenotes]

end Comparison

end LogLinear.Binary64
