import LogLinear.Proofs.Binary64.Infinite
import LogLinear.Proofs.Cell.Partition
import LogLinear.Proofs.Histogram.Effect
import LogLinear.Proofs.Histogram.Restored

/-!
Contract: the recording of measured quantities, by the quotient of quantity and ratio.

A quotient is a machine number and may be infinite. It is made a word before it is compared with the
highest trackable value, and a quotient beyond all words becomes the largest one.

Owns:
- the quotient of every quantity that has an integer;
- the recording that a quotient comes to, below and above the trackable range.

Does not own: the recording of integers. `LogLinear.Proofs.Histogram.Effect` has it.
-/

namespace LogLinear.Histogram

open Binary64

section Quotients

variable {histogram : Histogram} {quantity : Float} (finite : quantity.isFinite = true)
  (notBelow : ¬ quantity < 0.0)
include finite notBelow

theorem recordQuantity_eq_record :
    histogram.recordQuantity quantity =
      histogram.record (Word.truncate (quantity / histogram.ratio)) := by
  have isInteger : histogram.integerOf? quantity =
      some (Word.truncate (quantity / histogram.ratio)) := by
    rw [integerOf?, finite, decide_eq_false notBelow]
    rfl
  rw [recordQuantity, isInteger]

/-- The quotient is the exact one, rounded. -/
theorem exists_quotient (reachable : histogram.Reachable) :
    ∃ value ratio, Denotes quantity value ∧ Denotes histogram.ratio ratio ∧ 0 < ratio ∧
      reading? (quantity / histogram.ratio) = some (rounded (value / ratio)) := by
  obtain ⟨ratioFinite, ratioAbove⟩ := ratioValid_of_reachable reachable
  obtain ⟨value, denotes⟩ := exists_denotes_of_not_lt finite notBelow
  obtain ⟨ratio, ratioDenotes, positive⟩ := exists_denotes_of_pos ratioFinite ratioAbove
  exact ⟨value, ratio, denotes, ratioDenotes, positive, denotes.reading_div ratioDenotes positive⟩

end Quotients

/-- A quantity whose quotient by the ratio is below the number after the highest trackable value is
recorded as the whole part of the quotient. With any other quotient, infinity included, it is refused
as out of range if and only if the highest trackable value is not the largest word. If it is, then the
quotient is brought down to it and recorded. In place a refusal leaves every field as it was. -/
theorem recordQuantity_of_reachable {histogram : Histogram} (reachable : histogram.Reachable)
    (rejects : histogram.excess = .reject) {quantity : Float} (finite : quantity.isFinite = true)
    (notBelow : ¬ quantity < 0.0) :
    (Change.recordQuantity quantity).run histogram =
      Change.whole histogram (histogram.recordQuantity quantity) ∧
    ∃ quotient, reading? (quantity / histogram.ratio) = some quotient ∧
      (quotient < histogram.layout.highest + 1 →
        histogram.recordQuantity quantity = histogram.record ⌊quotient.toReal⌋₊) ∧
      (histogram.layout.highest + 1 ≤ quotient →
        (histogram.recordQuantity quantity = .error .outOfRange ↔
          histogram.layout.highest ≠ Word.max) ∧
        (histogram.layout.highest = Word.max →
          histogram.recordQuantity quantity = histogram.record Word.max)) := by
  have sound := sound_of_reachable reachable
  have highestWord : histogram.layout.highest ≤ Word.max := histogram.layout.highest_le
  obtain ⟨value, ratio, -, -, -, isReading⟩ := exists_quotient finite notBelow reachable
  refine ⟨Change.recordQuantity_run histogram quantity, _, isReading, ?_⟩
  rw [recordQuantity_eq_record finite notBelow]
  refine ⟨?_, ?_⟩
  · intro below
    rw [(truncate_of_lt isReading highestWord below).1]
  · intro above
    have least := cap_le_truncate isReading above
    rcases highestWord.lt_or_eq with lower | isMax
    · rw [Word.cap_of_le lower] at least
      have refused : histogram.record (Word.truncate (quantity / histogram.ratio)) =
          .error .outOfRange := recordMany_of_rejected ⟨least, rejects⟩
      exact ⟨iff_of_true refused lower.ne, fun isMax => absurd isMax lower.ne⟩
    · rw [isMax, Word.cap_of_ge (Nat.le_succ _)] at least
      rw [le_antisymm (Word.truncate_le _) least, isMax]
      refine ⟨iff_of_false ?_ (fun notMax => notMax rfl), fun _ => rfl⟩
      intro refused
      have beyond := ((recordMany_eq_outOfRange_iff sound).mp refused).1
      exact beyond.ne isMax

/-- Values up to 8 that stand for quarters. -/
def quarters : Histogram := { empty .dyadic with ratio := 0.25 }

theorem quarters_reachable : quarters.Reachable := by
  have valid : Setup.RatioValid quarters.ratio := by decide +kernel
  have made : quarters.setup.histogram = .ok quarters := by
    rw [Setup.histogram, checkedLayout_setup valid]
    rfl
  exact .made made

/-- 1.75 stands for 7, and 2.25 would stand for 9. -/
theorem quarters_recordQuantity :
    quarters.Reachable ∧ quarters.excess = .reject ∧
    ((1.75 : Float).isFinite = true ∧ ¬ (1.75 : Float) < 0.0 ∧
      quarters.recordQuantity 1.75 = quarters.record 7) ∧
    (2.25 : Float).isFinite = true ∧ ¬ (2.25 : Float) < 0.0 ∧
      (Change.recordQuantity 2.25).run quarters = .error .outOfRange quarters := by
  have highest : quarters.layout.highest = 8 := by decide +kernel
  have finite : (1.75 : Float).isFinite = true ∧ (2.25 : Float).isFinite = true := by decide +kernel
  have notBelow : ¬ (1.75 : Float) < 0.0 ∧ ¬ (2.25 : Float) < 0.0 := by decide +kernel
  have seven : Denotes (1.75 / quarters.ratio) 7 := by
    rw [show (7 : ℝ) = (7 * 2 ^ 50 : ℕ) * 2 ^ (-50 : ℤ) by norm_num]
    exact Depicts.finite (show 0 < 7 * 2 ^ 50 by decide) (by norm_num) (by decide)
      (.inl (by norm_num)) (by decide)
  have nine : Denotes (2.25 / quarters.ratio) 9 := by
    rw [show (9 : ℝ) = (9 * 2 ^ 49 : ℕ) * 2 ^ (-49 : ℤ) by norm_num]
    exact Depicts.finite (show 0 < 9 * 2 ^ 49 by decide) (by norm_num) (by decide)
      (.inl (by norm_num)) (by decide)
  obtain ⟨-, quotient, isReading, inside, -⟩ :=
    recordQuantity_of_reachable quarters_reachable rfl finite.1 notBelow.1
  obtain ⟨whole, other, isOther, -, beyond⟩ :=
    recordQuantity_of_reachable quarters_reachable rfl finite.2 notBelow.2
  rw [seven.reading] at isReading
  rw [nine.reading] at isOther
  cases isReading
  cases isOther
  rw [highest] at inside beyond
  refine ⟨quarters_reachable, rfl, ⟨finite.1, notBelow.1, ?_⟩, finite.2, notBelow.2, ?_⟩
  · rw [inside (by norm_num)]
    norm_num
  · rw [whole, (beyond (by norm_num)).1.mpr (by decide)]
    rfl

/-- A quantity of `2 ^ 64` is greater than every word, and is recorded as the largest one. -/
theorem coarse_recordQuantity :
    (empty .coarse).Reachable ∧ (empty .coarse).excess = .reject ∧
    (18446744073709551616.0 : Float).isFinite = true ∧
    ¬ (18446744073709551616.0 : Float) < 0.0 ∧
    reading? (18446744073709551616.0 / (empty .coarse).ratio) =
      some (Layout.coarse.highest + 1) ∧
    ∃ after, (empty .coarse).recordQuantity 18446744073709551616.0 = .ok after ∧
      after.total = 1 := by
  have finite : (18446744073709551616.0 : Float).isFinite = true := by decide +kernel
  have notBelow : ¬ (18446744073709551616.0 : Float) < 0.0 := by decide +kernel
  have beyond : Denotes (18446744073709551616.0 / (empty .coarse).ratio) (2 ^ 64) := by
    rw [show (2 ^ 64 : ℝ) = (2 ^ 52 : ℕ) * 2 ^ (12 : ℤ) by norm_num]
    exact Depicts.finite (show 0 < 2 ^ 52 by decide) (by norm_num) (by decide) (.inl le_rfl)
      (by decide)
  refine ⟨.empty _, rfl, finite, notBelow, ?_, (empty .coarse).tally Word.max 1, ?_, rfl⟩
  · rw [beyond.reading]
    have highest : Layout.coarse.highest = 18446744073709551615 := rfl
    rw [highest]
    norm_num
  · have largest : Word.truncate (18446744073709551616.0 / (empty .coarse).ratio) = Word.max := by
      decide +kernel
    rw [recordQuantity_eq_record finite notBelow, largest, record, recordMany_eq_ok_iff]
    exact ⟨Word.max, Excess.accept_of_le le_rfl, by decide +kernel, rfl⟩

end LogLinear.Histogram
