import LogLinear.Proofs.Histogram.Highest
import LogLinear.Proofs.Traversal.Chain

/-!
Contract: traversals against the queries of their histogram.

Owns:
- the queries at the value of a cell, which find that very cell;
- the agreement of every step that ends on a counter with the queries at its value, whatever the
  schedule.

Does not own: steps beyond the last counter. A value beyond it is looked up in the last one.
-/

namespace LogLinear

open Histogram

variable {histogram : Histogram}

/-- The count and the percentage that a step quotes are those that its value is looked up with. -/
theorem Stop.Quotes.queries_eq {stop : Stop} (quotes : stop.Quotes histogram)
    (sound : histogram.Sound) (recorded : histogram.isEmpty = false)
    (counted : stop.index < histogram.counters.size) :
    histogram.countOf stop.step.value = stop.step.count ∧
      histogram.percentUpTo stop.step.value = stop.step.percent := by
  have found := lookupIndex_ceiling_start sound counted
  rw [← quotes.value_eq] at found
  refine ⟨?_, ?_⟩
  · rw [countOf, found, quotes.count_eq]
  · rw [percentUpTo, if_neg (by simp [recorded]), countUpTo, found, quotes.percent_eq]

namespace Traversal

variable {σ : Type}

theorem quotes_of_mem_stops (histogram : Histogram) (schedule : Schedule σ) (state : σ)
    (pulls : Nat) : ∀ stop ∈ stops pulls (ofSchedule histogram schedule state),
      stop.Quotes histogram := by
  refine forall_stops_of_turns (fun traversal => traversal.position.Follows histogram) ?_ ?_ pulls
    (Position.follows_origin histogram)
  · intro before after follows moved
    exact follows_of_turn_eq_moved follows moved
  · intro before after step follows stepped
    exact ⟨quotes_of_turn_eq_stepped follows stepped, follows_of_turn_eq_stepped follows stepped⟩

/-- Traversals and queries agree: whatever the schedule and however often it is pulled, the value of
a step that ends on a counter is looked up with the count and the percentage of the step. -/
theorem queries_eq_of_mem_stops (reachable : histogram.Reachable) (schedule : Schedule σ) (state : σ)
    (pulls : Nat) {stop : Stop} (taken : stop ∈ stops pulls (ofSchedule histogram schedule state))
    (counted : stop.index < histogram.counters.size) :
    histogram.countOf stop.step.value = stop.step.count ∧
      histogram.percentUpTo stop.step.value = stop.step.percent := by
  have recorded : histogram.isEmpty = false := by
    rw [← Bool.not_eq_true]
    intro isEmpty
    rw [stops_of_completed pulls (show (ofSchedule histogram schedule state).completed = true from
      isEmpty)] at taken
    exact List.not_mem_nil taken
  have quotes := quotes_of_mem_stops histogram schedule state pulls stop taken
  exact quotes.queries_eq (sound_of_reachable reachable) recorded counted

/-- The first step over the held cells of a histogram ends on the first of them. -/
theorem sample_queries_eq :
    ∃ stop ∈ stops 1 (overHeldCells .sample), stop.index = 2 ∧ stop.step.count = 1 ∧
      Histogram.sample.countOf stop.step.value = stop.step.count ∧
      Histogram.sample.percentUpTo stop.step.value = stop.step.percent := by
  have recorded : (overHeldCells .sample).completed = false := by decide +kernel
  have first := turn_eq_moved_iff.mpr (⟨by decide +kernel, by decide +kernel, rfl⟩ :
    (overHeldCells .sample).opened.1 = true ∧ _ ∧ _)
  obtain ⟨step, after, isNext, index, count⟩ : ∃ step after,
      (overHeldCells .sample).next = (some step, after) ∧ after.position.index = 2 ∧
        step.count = 1 := by
    rw [next_of_live recorded, run_of_moved first (by decide +kernel),
      run_of_moved (turn_eq_moved_iff.mpr ⟨by decide +kernel, by decide +kernel, rfl⟩)
        (by decide +kernel),
      run_of_stepped (turn_eq_stepped_iff.mpr ⟨by decide +kernel, by decide +kernel, rfl, rfl⟩)]
    exact ⟨_, _, rfl, by decide +kernel, by decide +kernel⟩
  have taken : ⟨after.position.index, step⟩ ∈ stops 1 (overHeldCells .sample) := by
    rw [stops_of_some 0 isNext]
    exact List.mem_cons_self
  have agree := queries_eq_of_mem_stops Histogram.sample_reachable _ _ 1 taken
    (index.trans_lt (by decide +kernel))
  exact ⟨_, taken, index, count, agree⟩

end Traversal

end LogLinear
