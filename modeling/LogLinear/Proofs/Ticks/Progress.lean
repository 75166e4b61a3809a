import LogLinear.Proofs.Percent.Share
import LogLinear.Proofs.Ticks.Following

/-!
Contract: how far the ticks get, one after the other.

Owns:
- the ticks in their order, which never go back;
- the room above a percentage that is enough for a tick there;
- the count at the top of a total that leaves enough room.

Ticks can stop short of a percentage below 100: what is left of the scale may be less than the last
place of a tick.

Does not own: the cells that the ticks have to get past. `LogLinear.Proofs.Traversal.Ending` has
them.
-/

namespace LogLinear.Ticks

open Binary64 Histogram

/-- The ticks in their order, from the first one on. -/
def nth (elementary : Elementary) (perHalf : Nat) : Nat → Float
  | 0 => 0.0
  | number + 1 => following elementary perHalf (nth elementary perHalf number)

variable {elementary : Elementary} (accurate : elementary.Accurate) {perHalf : ℕ}
  (positive : 0 < perHalf) (word : perHalf ≤ Word.max)
include accurate positive word

theorem denotes_nth (number : ℕ) :
    Denotes (nth elementary perHalf number) (valueOf (nth elementary perHalf number)) ∧
      valueOf (nth elementary perHalf number) ≤ 100 := by
  induction number with
  | zero =>
      rw [nth, denotes_zero.valueOf_eq]
      exact ⟨denotes_zero, by norm_num⟩
  | succ number inductionHypothesis =>
      obtain ⟨denotes, inside⟩ := inductionHypothesis
      obtain ⟨next, nextDenotes, advances⟩ :=
        denotes_following accurate positive word denotes inside
      rw [nth, nextDenotes.valueOf_eq]
      exact ⟨nextDenotes, advances.le_hundred⟩

theorem advances_nth (number : ℕ) :
    Advances perHalf (valueOf (nth elementary perHalf number))
      (valueOf (nth elementary perHalf (number + 1))) := by
  obtain ⟨denotes, inside⟩ := denotes_nth accurate positive word number
  obtain ⟨next, nextDenotes, advances⟩ := denotes_following accurate positive word denotes inside
  rw [nth, nextDenotes.valueOf_eq]
  exact advances

theorem valueOf_nth_mono : Monotone fun number => valueOf (nth elementary perHalf number) :=
  monotone_nat_of_le_succ fun number => (advances_nth accurate positive word number).value_le

/-- Every tick that is not beyond a bound is followed by one that is on by a last place at least, if
there is room above the bound. So one of them is beyond it. -/
theorem exists_lt_valueOf_nth {bound : ℝ} (room : 103 / 2 ^ 53 ≤ (100 - bound) / perHalf * 0.39) :
    ∃ number, bound < valueOf (nth elementary perHalf number) := by
  by_contra stays
  rw [not_exists] at stays
  have grows : ∀ number : ℕ, number / 2 ^ 53 ≤ valueOf (nth elementary perHalf number) := by
    intro number
    induction number with
    | zero =>
        rw [Nat.cast_zero, zero_div]
        exact (denotes_nth accurate positive word 0).1.nonneg
    | succ number inductionHypothesis =>
        have gain := (advances_nth accurate positive word number).gain_le
        have part : (100 - bound) / perHalf ≤
            (100 - valueOf (nth elementary perHalf number)) / perHalf :=
          div_le_div_of_nonneg_right (by linarith [not_lt.mp (stays number)]) perHalf.cast_nonneg
        push_cast
        linarith
  obtain ⟨number, far⟩ := exists_nat_gt ((100 : ℝ) * 2 ^ 53)
  have beyond := (lt_div_iff₀ (by positivity)).mpr far
  exact (beyond.trans_le (grows number)).not_ge (denotes_nth accurate positive word number).2

/-- Ticks get past the percentage of all but some of a total, if these are not too few for the
number of ticks to a half. -/
theorem exists_percentOf_lt_nth {top total : ℕ} (inside : top ≤ total) (totalPositive : 0 < total)
    (totalWord : total ≤ Word.max) (enough : perHalf * total ≤ 2 ^ 50 * top) :
    ∃ number, percentOf (total - top) total < nth elementary perHalf number := by
  have perHalfReal : (0 : ℝ) < perHalf := by exact_mod_cast positive
  have totalReal : (0 : ℝ) < total := by exact_mod_cast totalPositive
  have one : (1 : ℝ) ≤ perHalf := by exact_mod_cast positive
  have enoughReal : (perHalf : ℝ) / 2 ^ 50 ≤ top / total := by
    rw [div_le_div_iff₀ (by positivity) totalReal, mul_comm (top : ℝ)]
    exact_mod_cast enough
  have part : ((total - top : ℕ) : ℝ) / total = 1 - top / total := by
    rw [Nat.cast_sub inside, sub_div, div_self totalReal.ne']
  have percent := share_le (Nat.sub_le total top) totalPositive
  rw [part] at percent
  have room : 103 / 2 ^ 53 ≤ (100 - share (total - top) total) / perHalf * 0.39 := by
    rw [div_mul_eq_mul_div, le_div_iff₀ perHalfReal]
    linarith
  obtain ⟨number, beyond⟩ := exists_lt_valueOf_nth accurate positive word room
  have denotes := denotes_percentOf ((Nat.sub_le total top).trans totalWord) totalPositive totalWord
  exact ⟨number, (denotes.lt_iff (denotes_nth accurate positive word number).1).mpr beyond⟩

end LogLinear.Ticks
