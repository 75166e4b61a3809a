import LogLinear.Proofs.Cell.Nested
import LogLinear.Proofs.Collector.Mirror
import LogLinear.Proofs.Histogram.Conservation
import LogLinear.Proofs.Histogram.Sharding

/-!
Contract: recording in a layout that is at least as fine, followed by a merge, loses nothing.

Owns:
- what records send to several counters at once;
- the counter that a merge sends a recorded value to, which is its own in the coarser layout;
- the agreement of the merge with recording at once.

Does not own: layouts neither of which is at least as fine as the other.
-/

namespace LogLinear.Histogram

open Finset

/-! ### What is sent to several counters -/

/-- The counters of some indices together are sent what goes to any one of them. -/
theorem sum_sent (layout : Layout) (records : List (Nat × Nat)) (chosen : Nat → Prop)
    [DecidablePred chosen] :
    ∑ index ∈ range layout.cellCount with chosen index, sent layout records index =
      (records.map fun record =>
        if chosen (layout.cell (min record.1 layout.highest)) then record.2 else 0).sum := by
  induction records with
  | nil => exact sum_const_zero
  | cons record rest inductionHypothesis =>
      have counted := layout.cell_lt_cellCount (Nat.min_le_right record.1 layout.highest)
      have first : ∑ index ∈ range layout.cellCount with chosen index,
          (if layout.cell (min record.1 layout.highest) = index then record.2 else 0) =
            if chosen (layout.cell (min record.1 layout.highest)) then record.2 else 0 := by
        simp only [sum_ite_eq, mem_filter, mem_range, counted, true_and]
      rw [List.map_cons, List.sum_cons, ← inductionHypothesis, ← first, ← sum_add_distrib]
      rfl

theorem exists_of_sent_ne_zero {layout : Layout} {records : List (Nat × Nat)} {index : Nat}
    (reached : sent layout records index ≠ 0) :
    ∃ record ∈ records, layout.cell (min record.1 layout.highest) = index := by
  by_contra missed
  apply reached
  apply List.sum_eq_zero
  intro term member
  obtain ⟨record, isRecord, rfl⟩ := List.mem_map.mp member
  exact if_neg fun same => missed ⟨record, isRecord, same⟩

theorem count_fresh_tallyEach (layout : Layout) (excess : Excess) (ratio : Float)
    (records : List (Nat × Nat)) (index : Nat) :
    ((fresh layout excess ratio).tallyEach records).count index = sent layout records index := by
  have zero : (fresh layout excess ratio).count index = 0 := getD_replicate _ index
  rw [count_tallyEach (sound_fresh layout excess ratio).size_eq, zero, Nat.zero_add]
  rfl

theorem recordEach_fresh_of_le {layout : Layout} (excess : Excess) (ratio : Float)
    {records : List (Nat × Nat)} (trackable : ∀ record ∈ records, record.1 ≤ layout.highest)
    (room : countSum records ≤ Word.max) :
    (fresh layout excess ratio).recordEach records =
      .ok ((fresh layout excess ratio).tallyEach records) := by
  rw [recordEach_fresh, if_pos room]
  intro record member
  rw [Excess.accept_of_le (trackable record member)]
  exact Option.some_ne_none _

/-! ### Merging into a coarser layout -/

section Coarser

variable {histogram other : Histogram} (refines : other.layout.Refines histogram.layout)
include refines

/-- The start of its fine cell is in the same coarse cell as the value, and so it is if both are
brought into the range. -/
theorem destination?_cell {value : Nat} (trackable : value ≤ other.layout.highest)
    (admitted : ¬ (histogram.excess = .reject ∧ histogram.layout.highest < value)) :
    histogram.destination? other (other.layout.cell value) =
      some (histogram.layout.cell (min value histogram.layout.highest)) := by
  unfold destination?
  split_ifs with same
  · rw [same, Nat.min_eq_left trackable]
  · have rounded := other.layout.floor_le value
    have floorAdmitted :
        histogram.excess.accept histogram.layout (other.layout.floor value) ≠ none := by
      rw [ne_eq, Excess.accept_eq_none_iff]
      exact fun rejected => admitted ⟨rejected.1, rejected.2.trans_le rounded⟩
    rw [start, other.layout.start_cell (trackable.trans other.layout.highest_le),
      Excess.accept_eq_min floorAdmitted, Option.map_some, refines.cell_min_floor]

variable {records : List (Nat × Nat)} (sound : histogram.Sound) (otherSound : other.Sound)
  (holds : ∀ index, other.count index = sent other.layout records index)
  (trackable : ∀ record ∈ records, record.1 ≤ other.layout.highest)
  (admitted : ∀ record ∈ records,
    ¬ (histogram.excess = .reject ∧ histogram.layout.highest < record.1))
include sound otherSound holds trackable admitted

/-- What the records have sent to the fine counters is sent on to the coarse counters that they would
have reached at once. -/
theorem count_of_absorbs {merged : Histogram} (absorbs : histogram.Absorbs other merged)
    (index : Nat) : merged.count index = (histogram.tallyEach records).count index := by
  rw [absorbs.count_eq, count_tallyEach sound.size_eq]
  simp only [holds]
  rw [otherSound.size_eq, sum_sent, sent]
  congr 2
  apply List.map_congr_left
  intro record member
  simp only [Nat.min_eq_left (trackable record member), Option.some_inj,
    destination?_cell refines (trackable record member) (admitted record member)]

omit refines in
/-- A fine cell that holds a count starts no higher than one of the records, so none is refused. -/
theorem exists_merge (room : histogram.total + other.total ≤ Word.max) :
    ∃ merged, histogram.merge other = .ok merged := by
  cases result : histogram.merge other with
  | ok merged => exact ⟨merged, rfl⟩
  | error fault =>
      exfalso
      rcases merge_refused sound otherSound result with ⟨-, full⟩ | outOfRange
      · exact full.not_ge room
      · obtain ⟨-, -, rejects, index, nonzero, above⟩ := outOfRange
        rw [holds] at nonzero
        obtain ⟨record, member, rfl⟩ := exists_of_sent_ne_zero nonzero
        have word := (trackable record member).trans other.layout.highest_le
        rw [Nat.min_eq_left (trackable record member), start, other.layout.start_cell word] at above
        exact admitted record member ⟨rejects, above.trans_le (other.layout.floor_le record.1)⟩

/-- The extents may differ, but only within cells, so the extremes do not. -/
theorem merged_eq_tallyEach (total : other.total = countSum records)
    (room : histogram.total + countSum records ≤ Word.max) {merged : Histogram}
    (result : histogram.merge other = .ok merged) :
    merged.counters = (histogram.tallyEach records).counters ∧
      merged.total = (histogram.tallyEach records).total ∧
      merged.minimum = (histogram.tallyEach records).minimum ∧
      merged.maximum = (histogram.tallyEach records).maximum := by
  have absorbs := (absorbs_of_merge sound otherSound result).2
  have mergedSound := sound_merge sound otherSound result
  have directSound := sound_tallyEach sound room
  have layout : merged.layout = (histogram.tallyEach records).layout := by
    rw [absorbs.layout_eq, layout_tallyEach]
  have counters : merged.counters = (histogram.tallyEach records).counters := by
    apply counters_ext
    · rw [mergedSound.size_eq, directSound.size_eq, layout]
    · exact count_of_absorbs refines sound otherSound holds trackable admitted absorbs
  refine ⟨counters, ?_, extremes_eq mergedSound directSound layout counters⟩
  rw [absorbs.total_eq, total_tallyEach, total]

end Coarser

/-- Merging loses nothing if the source is at least as fine. Records that the finer layout can track
and the histogram lets in, recorded in a fresh histogram of the finer layout and merged from there,
leave the same counters, total and extremes as the same records taken at once. Values above the range
of the coarser layout are clamped in either way, but for those whose fine cell starts within the
range, and these have the counter of the highest trackable value anyway. -/
theorem merge_of_finer {histogram : Histogram} (reachable : histogram.Reachable) {layout : Layout}
    (excess : Excess) (ratio : Float) (refines : layout.Refines histogram.layout)
    {records : List (Nat × Nat)} (trackable : ∀ record ∈ records, record.1 ≤ layout.highest)
    (admitted : histogram.excess = .clamp ∨
      ∀ record ∈ records, record.1 ≤ histogram.layout.highest)
    (room : histogram.total + (records.map Prod.snd).sum ≤ Word.max) :
    ∃ other merged direct,
      (fresh layout excess ratio).recordEach records = .ok other ∧
      histogram.merge other = .ok merged ∧ histogram.recordEach records = .ok direct ∧
      merged.counters = direct.counters ∧ merged.total = direct.total ∧
      merged.minimum = direct.minimum ∧ merged.maximum = direct.maximum := by
  have sound := sound_of_reachable reachable
  have letIn : ∀ record ∈ records,
      ¬ (histogram.excess = .reject ∧ histogram.layout.highest < record.1) := by
    rintro record member ⟨rejects, above⟩
    rcases admitted with clamps | within
    · rw [clamps] at rejects
      cases rejects
    · exact above.not_ge (within record member)
  have direct : histogram.recordEach records = .ok (histogram.tallyEach records) :=
    (recordEach_eq_ok_iff sound).mpr
      ⟨fun record member rejected =>
        letIn record member (Excess.accept_eq_none_iff.mp rejected), room, rfl⟩
  have freshRoom : countSum records ≤ Word.max := (Nat.le_add_left _ _).trans room
  have collected := recordEach_fresh_of_le excess ratio trackable freshRoom
  have otherSound := sound_fresh_tallyEach layout excess ratio freshRoom
  have total := total_fresh_tallyEach layout excess ratio records
  have holds := count_fresh_tallyEach layout excess ratio records
  have isLayout : ((fresh layout excess ratio).tallyEach records).layout = layout :=
    layout_tallyEach _ records
  generalize (fresh layout excess ratio).tallyEach records = other at *
  subst isLayout
  obtain ⟨merged, result⟩ :=
    exists_merge sound otherSound holds trackable letIn (total ▸ room)
  exact ⟨other, merged, _, collected, result, direct,
    merged_eq_tallyEach refines sound otherSound holds trackable letIn total room result⟩

/-- Whole octaves, with 70 recorded in place of larger values. -/
def clamped : Histogram :=
  kept (empty .dyadic)
    (Setup.histogram { requirement := ⟨1, 70, 0, Word.one_le_max, by decide⟩, excess := .clamp })

theorem clamped_reachable : clamped.Reachable := kept_induction (.empty .dyadic) fun _ => .made

/-- 127 is clamped in either way. 71 is clamped only if it is recorded at once, as its fine cell
starts at 68. -/
theorem clamped_merge_of_finer :
    (clamped.Reachable ∧ Layout.decimal.Refines clamped.layout ∧
      clamped.total + ([(127, 1), (71, 4), (0, 3)].map Prod.snd).sum ≤ Word.max) ∧
    ∃ other merged direct,
      (fresh .decimal .reject 2.0).recordEach [(127, 1), (71, 4), (0, 3)] = .ok other ∧
      clamped.merge other = .ok merged ∧
      clamped.recordEach [(127, 1), (71, 4), (0, 3)] = .ok direct ∧
      (merged.counters = direct.counters ∧ direct.counters = #[3, 0, 0, 0, 0, 0, 0, 5]) ∧
      (merged.total = direct.total ∧ direct.total = 8) ∧
      merged.minimum = direct.minimum ∧ merged.maximum = direct.maximum := by
  have clamps : clamped.excess = .clamp := by decide +kernel
  have refines : Layout.decimal.Refines clamped.layout := ⟨by decide +kernel, by decide +kernel⟩
  have room : clamped.total + ([(127, 1), (71, 4), (0, 3)].map Prod.snd).sum ≤ Word.max := by
    decide +kernel
  obtain ⟨other, merged, direct, collected, result, recorded, counters, total, extremes⟩ :=
    merge_of_finer clamped_reachable .reject 2.0 refines (by decide) (.inl clamps) room
  have leaves : (clamped.recordEach [(127, 1), (71, 4), (0, 3)]).map
      (fun direct => (direct.counters, direct.total)) = .ok (#[3, 0, 0, 0, 0, 0, 0, 5], 8) := by
    decide +kernel
  rw [recorded] at leaves
  obtain ⟨isCounters, isTotal⟩ := Prod.ext_iff.mp (Except.ok.inj leaves)
  exact ⟨⟨clamped_reachable, refines, room⟩, other, merged, direct, collected, result, recorded,
    ⟨counters, isCounters⟩, ⟨total, isTotal⟩, extremes⟩

end LogLinear.Histogram
