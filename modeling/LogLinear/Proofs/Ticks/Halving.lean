import LogLinear.Proofs.Ticks.Level
import Mathlib.Analysis.Convex.SpecificFunctions.Basic

/-!
Contract: the part of the rest of the scale that the ticks of one half cover.

The distance of the ticks is found anew at each of them, from the rest that is left there. So each
covers the same share of its own rest, and as many as there are to a half cover less than a half,
unless there is only one of them.

Owns:
- the part of the rest that some exact ticks leave;
- the rest after some ticks of the machine, which is off by a small part of what exact ones leave. The
  last places add up over the ticks, so this holds as long as they are small against the rest;
- the schedule, which goes from tick to tick at whatever positions its steps end.

Does not own: the error of a single tick. `LogLinear.Proofs.Ticks.Level` has it.
-/

namespace LogLinear.Ticks

open Binary64

/-! ### Exact ticks -/

variable {perHalf : ℕ}

theorem perHalf_mul_share (positive : 0 < perHalf) :
    perHalf * (1 / (2 * (perHalf : ℝ))) = 1 / 2 := by
  have notZero : (perHalf : ℝ) ≠ 0 := Nat.cast_ne_zero.mpr positive.ne'
  field_simp

/-- The ticks of one half leave half of the rest at least. This is Bernoulli's inequality. -/
theorem half_le_pow (positive : 0 < perHalf) {number : ℕ} (few : number ≤ perHalf) :
    1 / 2 ≤ (1 - 1 / (2 * (perHalf : ℝ))) ^ number := by
  have low := share_le_half positive
  have share : 0 ≤ 1 / (2 * (perHalf : ℝ)) := by positivity
  have bernoulli := one_add_mul_le_pow (R := ℝ)
    (show -2 ≤ -(1 / (2 * (perHalf : ℝ))) by linarith) perHalf
  rw [mul_neg, perHalf_mul_share positive, ← sub_eq_add_neg, ← sub_eq_add_neg] at bernoulli
  calc (1 : ℝ) / 2 = 1 - 1 / 2 := by norm_num
    _ ≤ (1 - 1 / (2 * (perHalf : ℝ))) ^ perHalf := bernoulli
    _ ≤ (1 - 1 / (2 * (perHalf : ℝ))) ^ number :=
        pow_le_pow_of_le_one (by linarith) (by linarith) few

/-- Several ticks leave more. Half of them leave three quarters of the rest, and the others three
quarters of that. -/
theorem nine_sixteenths_le_pow (several : 1 < perHalf) :
    9 / 16 ≤ (1 - 1 / (2 * (perHalf : ℝ))) ^ perHalf := by
  have positive : 0 < perHalf := Nat.zero_lt_of_lt several
  have low := share_le_half positive
  have two : (2 : ℝ) ≤ perHalf := by exact_mod_cast several
  have nonneg : (0 : ℝ) ≤ 1 - 1 / (2 * perHalf) := by linarith
  have bernoulli := one_add_mul_self_le_rpow_one_add
    (show -1 ≤ -(1 / (2 * (perHalf : ℝ))) by linarith)
    (show 1 ≤ (perHalf : ℝ) / 2 by linarith)
  rw [div_mul_eq_mul_div, mul_neg, perHalf_mul_share positive, ← sub_eq_add_neg] at bernoulli
  have halves : (1 - 1 / (2 * (perHalf : ℝ))) ^ perHalf =
      ((1 - 1 / (2 * (perHalf : ℝ))) ^ ((perHalf : ℝ) / 2)) ^ 2 := by
    rw [← Real.rpow_mul_natCast nonneg, Nat.cast_ofNat, div_mul_cancel₀ _ two_ne_zero,
      Real.rpow_natCast]
  calc (9 : ℝ) / 16 = (3 / 4) ^ 2 := by norm_num
    _ ≤ ((1 - 1 / (2 * (perHalf : ℝ))) ^ ((perHalf : ℝ) / 2)) ^ 2 :=
        pow_le_pow_left₀ (by norm_num) (by linarith) 2
    _ = _ := halves.symm

/-! ### Ticks of the machine -/

/-- One step adds its own error and the last place to what the rest was off before. -/
theorem rest_advanced {gap ideal share error value step next : ℝ}
    (shareLow : 0 ≤ share) (shareHigh : share ≤ 1) (off : |100 - value - ideal| ≤ error)
    (bounded : 100 - value ≤ 101 / 100 * gap)
    (stepNear : Near (1 / 2 ^ 25) ((100 - value) * share) step)
    (nextNear : |next - (value + step)| ≤ 101 / 2 ^ 53) :
    |100 - next - ideal * (1 - share)| ≤
      error + (101 / 100 * (1 / 2 ^ 25 * (gap * share)) + 101 / 2 ^ 53) := by
  have split : 100 - next - ideal * (1 - share) =
      (100 - value - ideal) * (1 - share) - (step - (100 - value) * share) -
        (next - (value + step)) := by
    ring
  have kept : |(100 - value - ideal) * (1 - share)| ≤ error := by
    rw [abs_mul, abs_of_nonneg (by linarith : 0 ≤ 1 - share)]
    exact (mul_le_of_le_one_right (abs_nonneg _) (by linarith)).trans off
  have stepError : |step - (100 - value) * share| ≤
      101 / 100 * (1 / 2 ^ 25 * (gap * share)) := by
    have part : (100 - value) * share ≤ 101 / 100 * gap * share :=
      mul_le_mul_of_nonneg_right bounded shareLow
    calc |step - (100 - value) * share| ≤ 1 / 2 ^ 25 * ((100 - value) * share) := stepNear
      _ ≤ 1 / 2 ^ 25 * (101 / 100 * gap * share) :=
          mul_le_mul_of_nonneg_left part (by norm_num)
      _ = 101 / 100 * (1 / 2 ^ 25 * (gap * share)) := by ring
  calc |100 - next - ideal * (1 - share)|
      ≤ |(100 - value - ideal) * (1 - share)| + |step - (100 - value) * share| +
          |next - (value + step)| := by
        rw [split]
        exact (abs_sub _ _).trans (add_le_add_left (abs_sub _ _) _)
    _ ≤ _ := by linarith

section Errors

variable (positive : 0 < perHalf) {gap : ℝ} {number : ℕ} (few : number ≤ perHalf)
include positive few

/-- The errors of all ticks of a half together are small against the rest, if that is a part of the
scale in which the ticks are far apart. -/
theorem error_le (wide : perHalf / 2 ^ 32 ≤ gap / 100) :
    number * (101 / 100 * (1 / 2 ^ 25 * (gap * (1 / (2 * perHalf)))) + 101 / 2 ^ 53) ≤
      gap * (1 / (2 * 10 ^ 6)) := by
  have real : (0 : ℝ) < perHalf := Nat.cast_pos.mpr positive
  have nonneg : 0 ≤ gap := by
    have part : (0 : ℝ) ≤ perHalf / 2 ^ 32 := by positivity
    linarith
  have half := perHalf_mul_share positive
  calc number * (101 / 100 * (1 / 2 ^ 25 * (gap * (1 / (2 * perHalf)))) + 101 / 2 ^ 53)
      ≤ perHalf * (101 / 100 * (1 / 2 ^ 25 * (gap * (1 / (2 * perHalf)))) + 101 / 2 ^ 53) :=
        mul_le_mul_of_nonneg_right (Nat.cast_le.mpr few) (by positivity)
    _ = 101 / 100 * (1 / 2 ^ 25 * (gap * (perHalf * (1 / (2 * perHalf))))) +
          perHalf * (101 / 2 ^ 53) := by
        ring
    _ ≤ gap * (1 / (2 * 10 ^ 6)) := by
        rw [half]
        linarith

theorem near_of_error_le {rest : ℝ} (nonneg : 0 ≤ gap)
    (off : |rest - gap * (1 - 1 / (2 * perHalf)) ^ number| ≤ gap * (1 / (2 * 10 ^ 6))) :
    Near (1 / 10 ^ 6) (gap * (1 - 1 / (2 * perHalf)) ^ number) rest := by
  have half := mul_le_mul_of_nonneg_left (half_le_pow positive few) nonneg
  rw [Near]
  linarith

end Errors

theorem half_lt_of_near (several : 1 < perHalf) {gap rest : ℝ} (room : 0 < gap)
    (near : Near (1 / 10 ^ 6) (gap * (1 - 1 / (2 * perHalf)) ^ perHalf) rest) : gap / 2 < rest := by
  have kept := mul_le_mul_of_nonneg_left (nine_sixteenths_le_pow several) room.le
  linarith [near.bounds.1]

section Machine

variable {elementary : Elementary} (accurate : elementary.AccurateTo (1 / 2 ^ 40))
  (positive : 0 < perHalf) (narrow : perHalf < 2 ^ 32) {start : ℕ} {value : ℝ}
  (denotes : Denotes (nth elementary perHalf start) value) (inside : value ≤ 100)
include accurate positive narrow denotes inside

theorem near_succ {next : ℝ} (nextDenotes : Denotes (nth elementary perHalf (start + 1)) next) :
    |next - (value + (100 - value) * (1 / (2 * perHalf)))| ≤
      1 / 2 ^ 25 * ((100 - value) * (1 / (2 * perHalf))) + 1 / 2 ^ 46 := by
  obtain ⟨following, step, followingDenotes, -, stepNear, followingNear⟩ :=
    near_following accurate denotes positive narrow inside
  obtain rfl := followingDenotes.unique nextDenotes
  calc |following - (value + (100 - value) * (1 / (2 * perHalf)))|
      = |following - (value + step) + (step - (100 - value) * (1 / (2 * perHalf)))| := by
        congr 1
        ring
    _ ≤ |following - (value + step)| + |step - (100 - value) * (1 / (2 * perHalf))| :=
        abs_add_le _ _
    _ ≤ 101 / 2 ^ 53 + 1 / 2 ^ 25 * ((100 - value) * (1 / (2 * perHalf))) :=
        add_le_add followingNear stepNear
    _ ≤ _ := by linarith

variable (wide : perHalf / 2 ^ 32 ≤ (100 - value) / 100) {number : ℕ} (few : number ≤ perHalf)
include wide few

/-- The rest after some ticks of one half, from whatever tick they start. -/
theorem exists_rest :
    ∃ next, Denotes (nth elementary perHalf (start + number)) next ∧ next ≤ 100 ∧
      |100 - next - (100 - value) * (1 - 1 / (2 * perHalf)) ^ number| ≤
        number * (101 / 100 * (1 / 2 ^ 25 * ((100 - value) * (1 / (2 * perHalf)))) +
          101 / 2 ^ 53) := by
  have shareHigh := share_le_half positive
  have shareLow : (0 : ℝ) ≤ 1 / (2 * perHalf) := by positivity
  -- On the number of ticks, whose errors add up.
  induction number with
  | zero => exact ⟨value, denotes, inside, by simp⟩
  | succ number inductionHypothesis =>
      have fewer := Nat.le_of_succ_le few
      obtain ⟨current, currentDenotes, currentInside, off⟩ := inductionHypothesis fewer
      obtain ⟨next, step, nextDenotes, nextInside, stepNear, nextNear⟩ :=
        near_following accurate currentDenotes positive narrow currentInside
      have bounded : 100 - current ≤ 101 / 100 * (100 - value) := by
        have ideal : (100 - value) * (1 - 1 / (2 * perHalf)) ^ number ≤ 100 - value :=
          mul_le_of_le_one_right (by linarith) (pow_le_one₀ (by linarith) (by linarith))
        linarith [error_le positive fewer wide, (abs_le.mp off).2]
      have advanced := rest_advanced shareLow (by linarith) off bounded stepNear nextNear
      refine ⟨next, nextDenotes, nextInside, ?_⟩
      rw [pow_succ, ← mul_assoc, Nat.cast_succ, add_one_mul]
      exact advanced

/-- Up to a half, the rest is what exact ticks leave of it, with a relative error of a millionth. -/
theorem near_rest {next : ℝ}
    (nextDenotes : Denotes (nth elementary perHalf (start + number)) next) :
    Near (1 / 10 ^ 6) ((100 - value) * (1 - 1 / (2 * perHalf)) ^ number) (100 - next) := by
  obtain ⟨other, otherDenotes, -, off⟩ :=
    exists_rest accurate positive narrow denotes inside wide few
  obtain rfl := otherDenotes.unique nextDenotes
  exact near_of_error_le positive few (by linarith) (off.trans (error_le positive few wide))

end Machine

/-! ### The schedule -/

section Schedule

variable {elementary : Elementary}

/-- The place on the scale after steps that ended at some positions. -/
def after (elementary : Elementary) (perHalf : ℕ) (positions : List Position) : Ticks :=
  positions.foldl (Schedule.ticks elementary).afterStep (start perHalf)

/-- The schedule does not look at the positions where steps end, so the number of steps decides. -/
theorem after_eq (positions : List Position) :
    (after elementary perHalf positions).perHalf = perHalf ∧
      (after elementary perHalf positions).upcoming =
        nth elementary perHalf positions.length := by
  unfold after
  -- From the end of the list, where the fold takes its last step.
  induction positions using List.reverseRecOn with
  | nil => exact ⟨rfl, rfl⟩
  | append_singleton positions position inductionHypothesis =>
      obtain ⟨samePerHalf, isTick⟩ := inductionHypothesis
      rw [List.foldl_concat, List.length_append, List.length_singleton, nth, ← isTick]
      refine ⟨samePerHalf, ?_⟩
      change following elementary _ _ = _
      rw [samePerHalf]

theorem level_after (positions : List Position) (position : Position) :
    (Schedule.ticks elementary).level (after elementary perHalf positions) position =
      nth elementary perHalf positions.length :=
  (after_eq positions).2

/-- After any number of steps the level is off the real one by a millionth of it at most, and the next
step covers its share of the rest that is left there, up to a small part of the share and one last
place.

As long as the rest is a larger part of the scale than one in `2 ^ 32` for each tick of a half, the
last places stay small against it. From there the steps of one half leave what exact ones would, up to
a millionth of it. This is half of the rest if one step makes a half, and more if several do. -/
theorem near_level_of_steps (accurate : elementary.AccurateTo (1 / 2 ^ 40)) (positive : 0 < perHalf)
    (narrow : perHalf < 2 ^ 32) (positions : List Position) (position : Position) :
    ∃ value,
      Denotes ((Schedule.ticks elementary).level (after elementary perHalf positions) position)
        value ∧
      value ≤ 100 ∧ Near (1 / 10 ^ 6) (level perHalf positions.length) value ∧
      ∀ later : List Position, ∃ next,
        Denotes ((Schedule.ticks elementary).level
          (after elementary perHalf (positions ++ later)) position) next ∧
        (later.length = 1 →
          |next - (value + (100 - value) * (1 / (2 * perHalf)))| ≤
            1 / 2 ^ 25 * ((100 - value) * (1 / (2 * perHalf))) + 1 / 2 ^ 46) ∧
        (perHalf / 2 ^ 32 ≤ (100 - value) / 100 →
          (later.length ≤ perHalf →
            Near (1 / 10 ^ 6) ((100 - value) * (1 - 1 / (2 * perHalf)) ^ later.length)
              (100 - next)) ∧
          (later.length = perHalf → perHalf ≠ 1 → (100 - value) / 2 < 100 - next)) := by
  obtain ⟨value, denotes, inside, near⟩ := near_nth accurate positive narrow positions.length
  refine ⟨value, by rwa [level_after], inside, near, ?_⟩
  intro later
  obtain ⟨next, nextDenotes, -, -⟩ :=
    near_nth accurate positive narrow (positions.length + later.length)
  refine ⟨next, by rwa [level_after, List.length_append], ?_, ?_⟩
  · intro single
    rw [single] at nextDenotes
    exact near_succ accurate positive narrow denotes inside nextDenotes
  · intro wide
    have nearRest := fun few : later.length ≤ perHalf =>
      near_rest accurate positive narrow denotes inside wide few nextDenotes
    refine ⟨nearRest, ?_⟩
    intro whole several
    have near := nearRest whole.le
    rw [whole] at near
    have room : 0 < 100 - value := by
      have part : (0 : ℝ) < perHalf / 2 ^ 32 := by positivity
      linarith
    exact half_lt_of_near (by omega) room near

theorem level_two_two : level 2 2 = 43.75 := by
  rw [level]
  norm_num

/-- Two ticks to a half, after the first two steps and after two more. -/
theorem near_level_of_two_steps :
    Elementary.rounded.AccurateTo (1 / 2 ^ 40) ∧ 0 < 2 ∧ 2 < 2 ^ 32 ∧
      ∃ value next,
        Denotes ((Schedule.ticks Elementary.rounded).level
          (after Elementary.rounded 2 [.origin (.empty .dyadic), .origin (.empty .dyadic)])
          (.origin (.empty .dyadic))) value ∧
        Near (1 / 10 ^ 6) 43.75 value ∧ 2 / 2 ^ 32 ≤ (100 - value) / 100 ∧
        Denotes ((Schedule.ticks Elementary.rounded).level
          (after Elementary.rounded 2 (List.replicate 4 (.origin (.empty .dyadic))))
          (.origin (.empty .dyadic))) next ∧
        Near (1 / 10 ^ 6) ((100 - value) * (9 / 16)) (100 - next) ∧
        (100 - value) / 2 < 100 - next := by
  have accurate : Elementary.rounded.AccurateTo (1 / 2 ^ 40) :=
    Elementary.rounded_accurateTo.mono (by norm_num)
  obtain ⟨value, denotes, -, near, goesOn⟩ :=
    near_level_of_steps accurate two_pos (by norm_num)
      [.origin (.empty .dyadic), .origin (.empty .dyadic)] (.origin (.empty .dyadic))
  obtain ⟨next, nextDenotes, -, ofWide⟩ :=
    goesOn [.origin (.empty .dyadic), .origin (.empty .dyadic)]
  rw [List.length_cons, List.length_singleton, level_two_two] at near
  have wide : 2 / 2 ^ 32 ≤ (100 - value) / 100 := by linarith [near.bounds.2]
  obtain ⟨rest, half⟩ := ofWide (by rwa [Nat.cast_ofNat])
  have nearRest := rest le_rfl
  have kept : (1 - 1 / (2 * ((2 : ℕ) : ℝ))) ^ 2 = 9 / 16 := by norm_num
  rw [List.length_cons, List.length_singleton, kept] at nearRest
  exact ⟨accurate, two_pos, by norm_num, value, next, denotes, near, wide, nextDenotes, nearRest,
    half rfl (by decide)⟩

/-- Two ticks to a half do not get to the middle of the scale with the first two steps. -/
theorem two_steps_do_not_halve :
    ¬ ∃ value,
      Denotes ((Schedule.ticks Elementary.rounded).level
        ((List.replicate (2 * 1) (.origin (.empty .dyadic))).foldl
          (Schedule.ticks Elementary.rounded).afterStep (start 2)) (.origin (.empty .dyadic)))
        value ∧
      Near (1 / 10 ^ 6) (100 * (1 - 1 / 2 ^ 1)) value := by
  rintro ⟨value, denotes, halved⟩
  obtain ⟨actual, actualDenotes, -, near⟩ :=
    near_nth (Elementary.rounded_accurateTo.mono (by norm_num)) two_pos (by norm_num) 2
  have isTick := @level_after 2 Elementary.rounded
    (List.replicate (2 * 1) (.origin (.empty .dyadic))) (.origin (.empty .dyadic))
  rw [after] at isTick
  rw [isTick, List.length_replicate] at denotes
  obtain rfl := denotes.unique actualDenotes
  rw [level_two_two] at near
  linarith [near.bounds.2, halved.bounds.1]

end Schedule

end LogLinear.Ticks
