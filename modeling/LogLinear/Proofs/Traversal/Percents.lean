import LogLinear.Proofs.Traversal.Cells
import LogLinear.Proofs.Traversal.Closing

/-!
Contract: the percentages that the traversals with at most one step for each cell report.

Owns:
- the percentages of their steps, the last of which is that of the total;
- the totals for which the last step is at exactly 100, and those for which no step is above it.

Does not own: the percentage of a total. `LogLinear.Proofs.Percent.Whole` has it.
-/

namespace LogLinear

open Histogram

namespace Histogram

theorem exists_percent_of_mem_stepsOn {histogram : Histogram} {indices : List ℕ}
    {previousValue : ℕ} {step : Step} (taken : step ∈ histogram.stepsOn previousValue indices) :
    ∃ index, step.percent = percentOf (histogram.countBefore (index + 1)) histogram.total := by
  have percents : (histogram.stepsOn previousValue indices).map Step.percent =
      indices.map fun index => percentOf (histogram.countBefore (index + 1)) histogram.total :=
    histogram.map_stepsOn _ (fun _ _ => rfl) previousValue
  have isPercent := List.mem_map_of_mem (f := Step.percent) taken
  rw [percents, List.mem_map] at isPercent
  obtain ⟨index, -, same⟩ := isPercent
  exact ⟨index, same.symm⟩

end Histogram

namespace Traversal

section Steps

variable {histogram : Histogram} (reachable : histogram.Reachable)
  (recorded : histogram.isEmpty = false) {traversal : Traversal LastStop}
  (isOne : traversal ∈ [overEveryCell histogram, overHeldCells histogram])
include reachable recorded isOne

/-- The cells that either traversal takes steps on, the last of which completes the total. -/
theorem exists_stepsOn_of_recorded :
    ∃ indices index, traversal.Yields (histogram.stepsOn 0 indices) ∧
      indices.getLast? = some index ∧
      histogram.countBefore (index + 1) = histogram.total := by
  have sound := sound_of_reachable reachable
  have positive := total_pos_of_recorded recorded
  rcases List.mem_pair.mp isOne with rfl | rfl
  · have some := size_pos sound
    refine ⟨_, histogram.counters.size - 1, overEveryCell_yields reachable positive, ?_, ?_⟩
    · rw [List.getLast?_range, if_neg some.ne']
    · rw [Nat.sub_add_cancel some, histogram.countBefore_of_size_le le_rfl, sound.total_eq]
  · have some : histogram.heldIndices ≠ [] := by
      rw [ne_eq, heldIndices_eq_nil_iff, held_eq_empty_iff_total sound]
      exact positive.ne'
    have isLast := List.getLast?_eq_some_getLast some
    exact ⟨_, _, overHeldCells_yields reachable positive, isLast,
      countBefore_highest_succ sound (isGreatest_of_getLast? isLast)⟩

theorem exists_percents :
    ∃ steps last, traversal.Yields steps ∧ steps.getLast? = some last ∧
      last.percent = percentOf histogram.total histogram.total ∧
      ∀ step ∈ steps, ∃ count ≤ histogram.total,
        step.percent = percentOf count histogram.total := by
  have sound := sound_of_reachable reachable
  obtain ⟨indices, index, yields, isLast, whole⟩ :=
    exists_stepsOn_of_recorded reachable recorded isOne
  obtain ⟨before, lastStep⟩ := histogram.exists_getLast?_stepsOn isLast 0
  refine ⟨_, _, yields, lastStep, congrArg (percentOf · histogram.total) whole, ?_⟩
  intro step taken
  obtain ⟨other, isPercent⟩ := exists_percent_of_mem_stepsOn taken
  refine ⟨_, ?_, isPercent⟩
  rw [sound.total_eq]
  exact histogram.countBefore_le _

end Steps

/-- Over a histogram that is not empty, the last step of the traversal of every cell and of that of
the held cells is at exactly 100 percent, if and only if the total is 100 percent of itself as
computed; and no step is above 100, if and only if the total is not. Both are so up to 48 bits. -/
theorem percents_of_reachable {histogram : Histogram} (reachable : histogram.Reachable)
    (recorded : histogram.isEmpty = false) :
    ∀ traversal ∈ [overEveryCell histogram, overHeldCells histogram], ∃ steps last,
      traversal.Yields steps ∧ steps.getLast? = some last ∧
      ((last.percent == 100.0) = true ↔
        ¬ FallsShort histogram.total ∧ ¬ Exceeds histogram.total) ∧
      ((∀ step ∈ steps, ¬ 100.0 < step.percent) ↔ ¬ Exceeds histogram.total) ∧
      (histogram.total < 2 ^ 48 → ¬ FallsShort histogram.total ∧ ¬ Exceeds histogram.total) := by
  intro traversal isOne
  have word := (sound_of_reachable reachable).total_le
  have positive := total_pos_of_recorded recorded
  obtain ⟨steps, last, yields, isLast, whole, parts⟩ := exists_percents reachable recorded isOne
  refine ⟨steps, last, yields, isLast, ?_, ⟨?_, ?_⟩, ?_⟩
  · rw [whole]
    exact percentOf_self_beq_hundred_iff positive word
  · intro inside exceeds
    apply inside last (List.mem_of_getLast? isLast)
    rw [whole]
    exact (hundred_lt_percentOf_self_iff positive word).mpr exceeds
  · intro inside step taken above
    obtain ⟨count, part, isPercent⟩ := parts step taken
    rw [isPercent] at above
    exact inside (exceeds_of_hundred_lt_percentOf part positive word above)
  · intro small
    exact ⟨not_fallsShort_of_lt small, not_exceeds_of_lt small⟩

/-- The three values of the sample are 100 percent. -/
theorem sample_percents : Histogram.sample.Reachable ∧ Histogram.sample.isEmpty = false ∧
    ∀ traversal ∈ [overEveryCell .sample, overHeldCells .sample], ∃ steps last,
      traversal.Yields steps ∧ steps.getLast? = some last ∧ (last.percent == 100.0) = true ∧
      ∀ step ∈ steps, ¬ 100.0 < step.percent := by
  have recorded : Histogram.sample.isEmpty = false := by decide +kernel
  refine ⟨sample_reachable, recorded, ?_⟩
  intro traversal isOne
  obtain ⟨steps, last, yields, isLast, exact, inside, small⟩ :=
    percents_of_reachable sample_reachable recorded traversal isOne
  obtain ⟨notShort, notMore⟩ := small (by decide +kernel)
  exact ⟨steps, last, yields, isLast, exact.mpr ⟨notShort, notMore⟩, inside.mpr notMore⟩

/-- Over one value that was recorded 360287970189641 times both traversals end below 100 percent, and
over two times more they end above. -/
theorem lone_percents_miss_hundred :
    ((lone 360287970189641).Reachable ∧ (lone 360287970189641).isEmpty = false ∧
      ∀ traversal ∈ [overEveryCell (lone 360287970189641), overHeldCells (lone 360287970189641)],
        ∃ steps last, traversal.Yields steps ∧ steps.getLast? = some last ∧
          last.percent < 100.0) ∧
    (lone 360287970189643).Reachable ∧ (lone 360287970189643).isEmpty = false ∧
      ∀ traversal ∈ [overEveryCell (lone 360287970189643), overHeldCells (lone 360287970189643)],
        ∃ steps last, traversal.Yields steps ∧ steps.getLast? = some last ∧
          100.0 < last.percent := by
  have recorded : (lone 360287970189641).isEmpty = false := by decide +kernel
  have recordedMore : (lone 360287970189643).isEmpty = false := by decide +kernel
  refine ⟨⟨lone_reachable _, recorded, ?_⟩, lone_reachable _, recordedMore, ?_⟩
  · intro traversal isOne
    obtain ⟨steps, last, yields, isLast, whole, -⟩ :=
      exists_percents (lone_reachable _) recorded isOne
    refine ⟨steps, last, yields, isLast, ?_⟩
    rw [whole]
    decide +kernel
  · intro traversal isOne
    obtain ⟨steps, last, yields, isLast, whole, -⟩ :=
      exists_percents (lone_reachable _) recordedMore isOne
    refine ⟨steps, last, yields, isLast, ?_⟩
    rw [whole]
    decide +kernel

end Traversal

end LogLinear
