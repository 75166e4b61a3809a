import LogLinear.Proofs.Histogram.Held
import LogLinear.Proofs.Histogram.Highest
import LogLinear.Proofs.Traversal.Picked

/-!
Contract: the steps of the traversals with at most one step for each cell.

Owns:
- lists of such steps, read off the cells that they are on;
- the traversal of every cell, whose steps count what the counters do;
- the traversal of the held cells, whose steps are those of the former on these cells, and whose
  ends are the extremes.

Does not own: the walk. `LogLinear.Proofs.Traversal.Picked` has it.
-/

namespace LogLinear

open Finset

/-! ### Lists of steps -/

namespace Histogram

section Steps

variable (histogram : Histogram) {indices : List Nat} {place index : Nat}

theorem exists_getElem?_stepsOn (isIndex : indices[place]? = some index) (previousValue : Nat) :
    ∃ before, (histogram.stepsOn previousValue indices)[place]? =
      some (histogram.stepOn before index) := by
  induction indices generalizing place previousValue with
  | nil => cases isIndex
  | cons first later inductionHypothesis =>
      cases place with
      | zero =>
          cases isIndex
          exact ⟨previousValue, rfl⟩
      | succ place => exact inductionHypothesis isIndex _

theorem length_stepsOn (previousValue : Nat) (indices : List Nat) :
    (histogram.stepsOn previousValue indices).length = indices.length := by
  induction indices generalizing previousValue with
  | nil => rfl
  | cons index later inductionHypothesis => exact congrArg Nat.succ (inductionHypothesis _)

theorem exists_getLast?_stepsOn (isLast : indices.getLast? = some index) (previousValue : Nat) :
    ∃ before, (histogram.stepsOn previousValue indices).getLast? =
      some (histogram.stepOn before index) := by
  rw [List.getLast?_eq_getElem?] at isLast
  obtain ⟨before, isStep⟩ := histogram.exists_getElem?_stepsOn isLast previousValue
  rw [← histogram.length_stepsOn previousValue, ← List.getLast?_eq_getElem?] at isStep
  exact ⟨before, isStep⟩

/-- What does not tell where a step starts can be read off the cells. -/
theorem map_stepsOn {α : Type} {view : Step → α} (term : Nat → α)
    (views : ∀ index previousValue, view (histogram.stepOn previousValue index) = term index)
    (previousValue : Nat) :
    (histogram.stepsOn previousValue indices).map view = indices.map term := by
  induction indices generalizing previousValue with
  | nil => rfl
  | cons index later inductionHypothesis =>
      exact congrArg₂ List.cons (views index previousValue) (inductionHypothesis _)

end Steps

end Histogram

/-! ### The two traversals -/

namespace Traversal

variable {histogram : Histogram}

theorem yields_nil_of_empty {σ : Type} (schedule : Schedule σ) (state : σ)
    (isEmpty : histogram.total = 0) : (ofSchedule histogram schedule state).Yields [] := by
  have isOver : (ofSchedule histogram schedule state).completed = true := decide_eq_true isEmpty
  exact .ended (by rw [next, if_pos isOver])

/-- The lowest and the highest held cell are those of the extremes. -/
theorem exists_ends_stepsOn (sound : histogram.Sound) (recorded : 0 < histogram.total) :
    ∃ first last, (histogram.stepsOn 0 histogram.heldIndices).head? = some first ∧
      (histogram.stepsOn 0 histogram.heldIndices).getLast? = some last ∧
      histogram.layout.floor first.value = histogram.minimum ∧
      last.value = histogram.maximum ∧ last.reached = histogram.total := by
  have some : histogram.heldIndices ≠ [] := by
    rw [ne_eq, Histogram.heldIndices_eq_nil_iff, Histogram.held_eq_empty_iff_total sound]
    exact recorded.ne'
  have isFirst := List.head?_eq_some_head some
  have isLast := List.getLast?_eq_some_getLast some
  have lowest := Histogram.isLeast_of_head? isFirst
  have highest := Histogram.isGreatest_of_getLast? isLast
  rw [List.head?_eq_getElem?] at isFirst
  obtain ⟨beforeFirst, firstStep⟩ := histogram.exists_getElem?_stepsOn isFirst 0
  obtain ⟨beforeLast, lastStep⟩ := histogram.exists_getLast?_stepsOn isLast 0
  rw [← List.head?_eq_getElem?] at firstStep
  refine ⟨_, _, firstStep, lastStep, ?_, ?_, ?_⟩
  · rw [Histogram.minimum_eq_start sound lowest]
    exact Histogram.floor_ceiling_start sound (Histogram.lt_size_of_getD_ne_zero lowest.1)
  · exact (Histogram.maximum_eq_ceiling sound highest).symm
  · exact Histogram.countBefore_highest_succ sound highest

section Picking

variable (reachable : histogram.Reachable)
include reachable

theorem yields_of_picking (wanted : Nat → Bool) (recorded : 0 < histogram.total)
    (unwanted : ∀ count, wanted count = false → count = 0) :
    (ofSchedule histogram (.picking wanted) ⟨none⟩).Yields (histogram.stepsOn 0
      ((List.range histogram.counters.size).filter fun index =>
        wanted (histogram.count index))) := by
  have sound := Histogram.sound_of_reachable reachable
  rw [List.range_eq_range']
  exact (due_ofSchedule recorded).yields sound unwanted (Histogram.size_pos sound) (Nat.zero_add _)

theorem overEveryCell_yields (recorded : 0 < histogram.total) :
    (overEveryCell histogram).Yields
      (histogram.stepsOn 0 (List.range histogram.counters.size)) := by
  have yields := yields_of_picking reachable (fun _ => true) recorded nofun
  rw [List.filter_true] at yields
  rw [overEveryCell, Schedule.everyCell_eq_picking]
  exact yields

theorem overHeldCells_yields (recorded : 0 < histogram.total) :
    (overHeldCells histogram).Yields (histogram.stepsOn 0 histogram.heldIndices) := by
  rw [overHeldCells, Schedule.heldCells_eq_picking]
  exact yields_of_picking reachable (decide <| · ≠ 0) recorded (by simp)

end Picking

/-- Over a histogram that is not empty, the traversal of every cell takes one step on each cell,
from the first one to the last one, and is over then. Each step reports its own cell and the totals
up to it, so what the steps count are the counters as they are, and their sum is the total. Over an
empty histogram there is no step. -/
theorem overEveryCell_covers {histogram : Histogram} (reachable : histogram.Reachable) :
    (histogram.total = 0 → (overEveryCell histogram).Yields []) ∧
    (0 < histogram.total → ∃ steps, (overEveryCell histogram).Yields steps ∧
      steps.length = histogram.counters.size ∧
      (∀ (index : Nat) (step : Step), steps[index]? = some step →
        step.value = histogram.layout.ceiling (histogram.start index) ∧
        step.count = histogram.count index ∧ step.added = histogram.count index ∧
        step.reached = ∑ cell ∈ range (index + 1), histogram.count cell ∧
        step.weight = ∑ cell ∈ range (index + 1),
          histogram.count cell * histogram.layout.ceiling (histogram.start cell)) ∧
      steps.map Step.count = histogram.counters.toList ∧
      (steps.map Step.count).sum = histogram.total ∧
      ∃ last, (pulled steps.length (overEveryCell histogram)).next = (none, last) ∧
        last.completed = true) := by
  have sound := Histogram.sound_of_reachable reachable
  constructor
  · intro isEmpty
    exact yields_nil_of_empty _ _ isEmpty
  · intro recorded
    have yields := overEveryCell_yields reachable recorded
    have length := histogram.length_stepsOn 0 (List.range histogram.counters.size)
    rw [List.length_range] at length
    refine ⟨_, yields, length, ?_, ?_, ?_, yields.completes⟩
    · intro index step isStep
      have inside : index < histogram.counters.size :=
        length ▸ (List.getElem?_eq_some_iff.mp isStep).1
      obtain ⟨before, isOn⟩ := histogram.exists_getElem?_stepsOn (List.getElem?_range inside) 0
      cases isStep.symm.trans isOn
      exact ⟨rfl, rfl, rfl, histogram.countBefore_eq_sum _, rfl⟩
    · rw [histogram.map_stepsOn histogram.count fun _ _ => rfl, histogram.map_count_range]
    · rw [histogram.map_stepsOn histogram.count fun _ _ => rfl, sound.total_eq,
        Histogram.sumOf_eq_sum_range]
      rfl

/-- Cells that count nothing have their steps as well, the last one among them. -/
theorem sample_overEveryCell :
    (Histogram.sample.Reachable ∧ 0 < Histogram.sample.total) ∧
    ∃ steps fourth, (overEveryCell .sample).Yields steps ∧
      steps.map Step.count = [0, 0, 1, 2, 0] ∧ (steps.map Step.count).sum = 3 ∧
      steps[3]? = some fourth ∧ fourth.value = 7 ∧ fourth.weight = 1 * 3 + 2 * 7 := by
  have recorded : 0 < Histogram.sample.total := by decide +kernel
  obtain ⟨steps, yields, length, each, counts, sum, -⟩ :=
    (overEveryCell_covers Histogram.sample_reachable).2 recorded
  have size : Histogram.sample.counters.size = 5 := by decide +kernel
  have isFourth : steps[3]? = some steps[3] := List.getElem?_eq_getElem (by omega)
  obtain ⟨value, -, -, -, weight⟩ := each 3 _ isFourth
  refine ⟨⟨Histogram.sample_reachable, recorded⟩, steps, steps[3], yields, ?_, ?_, isFourth, ?_, ?_⟩
  · rw [counts]
    decide +kernel
  · rw [sum]
    decide +kernel
  · rw [value]
    decide +kernel
  · rw [weight]
    decide +kernel

/-- The traversal of the held cells takes one step on each cell that holds a count, in the order of
their indices, and is over then. Each step is that of the traversal of every cell on the same cell,
but for where it starts. The ends of the steps are those of the recorded values. -/
theorem overHeldCells_agrees {histogram : Histogram} (reachable : histogram.Reachable) :
    ∃ steps every : List Step,
      (overHeldCells histogram).Yields steps ∧ (overEveryCell histogram).Yields every ∧
      (histogram.heldIndices.Pairwise (· < ·) ∧
        ∀ index, index ∈ histogram.heldIndices ↔ histogram.count index ≠ 0) ∧
      steps.length = histogram.heldIndices.length ∧
      (∀ place index : Nat, histogram.heldIndices[place]? = some index → ∃ step other : Step,
        steps[place]? = some step ∧ every[index]? = some other ∧
        step = { other with previousValue := step.previousValue }) ∧
      (0 < histogram.total → ∃ first last, steps.head? = some first ∧ steps.getLast? = some last ∧
        histogram.layout.floor first.value = histogram.minimum ∧
        last.value = histogram.maximum ∧ last.reached = histogram.total) ∧
      ∃ last, (pulled steps.length (overHeldCells histogram)).next = (none, last) ∧
        last.completed = true := by
  have sound := Histogram.sound_of_reachable reachable
  have order : histogram.heldIndices.Pairwise (· < ·) ∧
      ∀ index, index ∈ histogram.heldIndices ↔ histogram.count index ≠ 0 :=
    ⟨histogram.pairwise_heldIndices, fun _ => Histogram.mem_heldIndices⟩
  rcases Nat.eq_zero_or_pos histogram.total with isEmpty | recorded
  · have yields := yields_nil_of_empty Schedule.heldCells ⟨none⟩ isEmpty
    have nothing : histogram.heldIndices = [] :=
      Histogram.heldIndices_eq_nil_iff.mpr ((Histogram.held_eq_empty_iff_total sound).mpr isEmpty)
    refine ⟨[], [], yields, yields_nil_of_empty _ _ isEmpty, order,
      (congrArg List.length nothing).symm, ?_, ?_, yields.completes⟩
    · intro place index isIndex
      rw [nothing] at isIndex
      cases isIndex
    · intro recorded
      exact absurd isEmpty recorded.ne'
  · have yields := overHeldCells_yields reachable recorded
    refine ⟨_, _, yields, overEveryCell_yields reachable recorded, order,
      histogram.length_stepsOn _ _, ?_, ?_, yields.completes⟩
    · intro place index isIndex
      have isHeld := Histogram.mem_heldIndices.mp (List.mem_of_getElem? isIndex)
      have inside : index < histogram.counters.size := Histogram.lt_size_of_getD_ne_zero isHeld
      obtain ⟨before, isStep⟩ := histogram.exists_getElem?_stepsOn isIndex 0
      obtain ⟨earlier, isOther⟩ :=
        histogram.exists_getElem?_stepsOn (List.getElem?_range inside) 0
      exact ⟨_, _, isStep, isOther, rfl⟩
    · intro _
      exact exists_ends_stepsOn sound recorded

/-- The two held cells of the sample end its range. -/
theorem sample_overHeldCells :
    (Histogram.sample.Reachable ∧ 0 < Histogram.sample.total) ∧
    ∃ steps first last, (overHeldCells .sample).Yields steps ∧ steps.length = 2 ∧
      steps.head? = some first ∧ Layout.dyadic.floor first.value = 2 ∧
      steps.getLast? = some last ∧ last.value = 7 ∧ last.reached = 3 := by
  have recorded : 0 < Histogram.sample.total := by decide +kernel
  obtain ⟨steps, every, yields, -, -, length, -, ends, -⟩ :=
    overHeldCells_agrees Histogram.sample_reachable
  obtain ⟨first, last, isFirst, isLast, minimum, maximum, total⟩ := ends recorded
  refine ⟨⟨Histogram.sample_reachable, recorded⟩, steps, first, last, yields, ?_, isFirst, ?_,
    isLast, ?_, ?_⟩
  · rw [length]
    decide +kernel
  · have isLayout : Histogram.sample.layout = .dyadic := by decide +kernel
    rw [← isLayout, minimum]
    decide +kernel
  · rw [maximum]
    decide +kernel
  · rw [total]
    decide +kernel

end Traversal

end LogLinear
