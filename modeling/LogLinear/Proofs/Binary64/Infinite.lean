import LogLinear.Proofs.Binary64.Whole

/-!
Contract: the values of machine numbers, infinity being one of them.

Owns:
- the value of every machine number that is not below zero;
- quotients, which are infinite if the rounded quotient does not fit;
- the whole part of a number as a word, whether or not the number is infinite.

Does not own: what is divided. `LogLinear.Proofs.Histogram.Quantity` has it.
-/

namespace LogLinear.Binary64

open Float.Model Float.Model.UnpackedFloat

/-- The value of a machine number. NaN and numbers below zero have none. -/
noncomputable def reading? (number : Float) : Option ENNReal :=
  match number.toModel.unpack with
  | .zero _ => some 0
  | .finite .positive significand exponent _ => some (.ofReal (significand * 2 ^ exponent))
  | .infinity .positive => some ⊤
  | _ => none

/-- A number rounded to binary64 precision. Numbers that are too large for it become infinite. -/
noncomputable def rounded (number : ℝ) : ENNReal :=
  if nearest number < 2 ^ 1024 then .ofReal (nearest number) else ⊤

/-! ### Finite numbers -/

section Finite

variable {number : Float}

theorem denotes_of_unpack {significand : ℕ} {exponent : ℤ} {positive : 0 < significand}
    (isUnpacked : number.toModel.unpack = .finite .positive significand exponent positive) :
    Denotes number (significand * 2 ^ exponent) := by
  obtain ⟨narrow, lowest, full, highest⟩ := canonical_of_unpack isUnpacked
  rw [Denotes, isUnpacked]
  exact .finite positive narrow lowest full highest

theorem denotes_or_negative (finite : number.isFinite = true) :
    (∃ value, Denotes number value) ∨ ∃ significand exponent positive,
      number.toModel.unpack = .finite .negative significand exponent positive := by
  change number.toModel.unpack.isFinite = true at finite
  cases isUnpacked : number.toModel.unpack with
  | zero sign =>
      refine .inl ⟨0, ?_⟩
      rw [Denotes, isUnpacked]
      exact .zero sign
  | finite sign significand exponent positive =>
      cases sign with
      | positive => exact .inl ⟨_, denotes_of_unpack isUnpacked⟩
      | negative => exact .inr ⟨_, _, _, rfl⟩
  | infinity sign =>
      rw [isUnpacked] at finite
      cases finite
  | notANumber =>
      rw [isUnpacked] at finite
      cases finite

theorem exists_denotes_of_not_lt (finite : number.isFinite = true) (notBelow : ¬ number < 0.0) :
    ∃ value, Denotes number value := by
  obtain denotes | ⟨significand, exponent, positive, isUnpacked⟩ := denotes_or_negative finite
  · exact denotes
  · change ¬ decide ((number.toModel.unpack.compare (.zero .positive) == some .lt) = true) = true
      at notBelow
    rw [isUnpacked] at notBelow
    exact absurd rfl notBelow

theorem exists_denotes_of_pos (finite : number.isFinite = true) (above : 0.0 < number) :
    ∃ value, Denotes number value ∧ 0 < value := by
  obtain ⟨value, denotes⟩ | ⟨significand, exponent, positive, isUnpacked⟩ :=
    denotes_or_negative finite
  · exact ⟨value, denotes, (denotes_zero.lt_iff denotes).mp above⟩
  · change decide ((UnpackedFloat.compare (.zero .positive) number.toModel.unpack == some .lt) =
      true) = true at above
    rw [isUnpacked] at above
    cases above

theorem Denotes.reading {value : ℝ} (denotes : Denotes number value) :
    reading? number = some (.ofReal value) := by
  unfold Denotes at denotes
  unfold reading?
  generalize number.toModel.unpack = unpacked at denotes
  cases denotes with
  | zero sign => rw [ENNReal.ofReal_zero]
  | finite => rfl

end Finite

/-- The machine divides as if it had room for any quotient, and gives infinity if it has not. -/
theorem Denotes.reading_div {left right : Float} {leftValue rightValue : ℝ}
    (leftDenotes : Denotes left leftValue) (rightDenotes : Denotes right rightValue)
    (rightPositive : 0 < rightValue) :
    reading? (left / right) = some (rounded (leftValue / rightValue)) := by
  have canonical := canonical_div leftDenotes rightDenotes rightPositive
  unfold rounded
  split_ifs with fits
  · exact (canonical.depicts fits).denotes.reading
  · have infinite : (left / right).toModel.unpack = .infinity .positive :=
      canonical.unpack_pack_of_le (not_lt.mp fits)
    rw [reading?, infinite]

/-! ### Words -/

section Words

variable {number : Float} {value : ENNReal} (isReading : reading? number = some value)
include isReading

theorem denotes_or_infinite :
    (∃ real, Denotes number real ∧ value = .ofReal real) ∨
      number.toModel.unpack = .infinity .positive ∧ value = ⊤ := by
  unfold reading? at isReading
  split at isReading
  next sign isUnpacked =>
    cases isReading
    refine .inl ⟨0, ?_, ENNReal.ofReal_zero.symm⟩
    rw [Denotes, isUnpacked]
    exact .zero sign
  next isUnpacked =>
    cases isReading
    exact .inl ⟨_, denotes_of_unpack isUnpacked, rfl⟩
  next isUnpacked =>
    cases isReading
    exact .inr ⟨isUnpacked, rfl⟩
  next => cases isReading

theorem truncate_of_reading :
    Word.truncate number = if value = ⊤ then Word.max else Word.cap ⌊value.toReal⌋₊ := by
  obtain ⟨real, denotes, rfl⟩ | ⟨infinite, rfl⟩ := denotes_or_infinite isReading
  · rw [truncate_eq denotes, if_neg ENNReal.ofReal_ne_top, ENNReal.toReal_ofReal denotes.nonneg]
  · change (UInt64.ofNatClamp (number.toModel.unpack.toInt 0 (UInt64.size - 1)).toNat).toNat = _
    rw [infinite, if_pos rfl]
    rfl

variable {bound : ℕ}

/-- Below the number after a word, truncation takes off the fraction and nothing else. -/
theorem truncate_of_lt (word : bound ≤ Word.max) (below : value < bound + 1) :
    Word.truncate number = ⌊value.toReal⌋₊ ∧ ⌊value.toReal⌋₊ ≤ bound := by
  have finite : value ≠ ⊤ := below.ne_top
  have inside : ⌊value.toReal⌋₊ ≤ bound := by
    rw [← Nat.cast_add_one, ← ENNReal.ofReal_natCast,
      ENNReal.lt_ofReal_iff_toReal_lt finite] at below
    exact Nat.le_of_lt_succ ((Nat.floor_lt ENNReal.toReal_nonneg).mpr below)
  rw [truncate_of_reading isReading, if_neg finite, Word.cap_of_le (inside.trans word)]
  exact ⟨rfl, inside⟩

/-- From the number after a bound on, truncation gives a word beyond the bound, if there is one. -/
theorem cap_le_truncate (above : bound + 1 ≤ value) :
    Word.cap (bound + 1) ≤ Word.truncate number := by
  rw [truncate_of_reading isReading]
  split_ifs with infinite
  · exact Word.cap_le _
  · rw [← Nat.cast_add_one, ← ENNReal.ofReal_natCast,
      ENNReal.ofReal_le_iff_le_toReal infinite] at above
    exact min_le_min_right _ (Nat.le_floor above)

end Words

end LogLinear.Binary64
