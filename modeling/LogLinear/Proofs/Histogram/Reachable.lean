import LogLinear.Proofs.Histogram.Extremes

/-!
Contract: the histograms that a program can come to hold.

Owns:
- what is at hand after an operation, refused or not;
- reachability of collectors and histograms: every way to make one, followed by operations in any
  order;
- the aggregates of every reachable histogram, read off its counters.

Does not own: the lemmas on single operations. `LogLinear.Proofs.Histogram.Sound` does.
-/

namespace LogLinear

/-- What is at hand after an operation: its result, or what was there before if it was refused. -/
def kept {α : Type} (before : α) : Except Fault α → α
  | .ok after => after
  | .error _ => before

theorem kept_induction {α : Type} {motive : α → Prop} {before : α} {result : Except Fault α}
    (holds : motive before) (preserved : ∀ after, result = .ok after → motive after) :
    motive (kept before result) := by
  cases result with
  | ok after => exact preserved after rfl
  | error fault => exact holds

/-- The collectors that come from a layout or a setup by recordings and clearings, one after the
other. -/
inductive Collector.Reachable : Collector → Prop
  | empty (layout : Layout) : Reachable (Collector.empty layout)
  | made {setup : Setup} {collector : Collector} (made : setup.collector = .ok collector) :
      Reachable collector
  | recorded {collector : Collector} (before : Reachable collector) (value count : Nat) :
      Reachable (kept collector (collector.recordMany value count))
  | cleared {collector : Collector} (before : Reachable collector) : Reachable collector.cleared

/-- The histograms that come from a layout, a setup, counters kept elsewhere or a snapshot, by
recordings, merges and clearings in any order and with any arguments. -/
inductive Histogram.Reachable : Histogram → Prop
  | empty (layout : Layout) : Reachable (Histogram.empty layout)
  | made {setup : Setup} {histogram : Histogram} (made : setup.histogram = .ok histogram) :
      Reachable histogram
  | ofCounters {layout : Layout} {counters : Array Nat} {histogram : Histogram}
      (made : Histogram.ofCounters layout counters = .ok histogram) : Reachable histogram
  | restored {setup : Setup} {counters : Array Nat} {histogram : Histogram}
      (made : setup.histogramWith counters = .ok histogram) : Reachable histogram
  | snapshot {collector : Collector} (source : collector.Reachable) :
      Reachable collector.snapshot
  | recorded {histogram : Histogram} (before : Reachable histogram) (value : Nat) :
      Reachable (kept histogram (histogram.record value))
  | recordedMany {histogram : Histogram} (before : Reachable histogram) (value count : Nat) :
      Reachable (kept histogram (histogram.recordMany value count))
  | recordedQuantity {histogram : Histogram} (before : Reachable histogram) (quantity : Float) :
      Reachable (kept histogram (histogram.recordQuantity quantity))
  | merged {histogram other : Histogram} (before : Reachable histogram)
      (otherBefore : Reachable other) : Reachable (kept histogram (histogram.merge other))
  | cleared {histogram : Histogram} (before : Reachable histogram) :
      Reachable histogram.cleared

namespace Collector

theorem sound_of_setup {setup : Setup} {collector : Collector}
    (made : setup.collector = .ok collector) : collector.Sound := by
  unfold Setup.collector at made
  cases isLayout : setup.checkedLayout with
  | error fault =>
      rw [isLayout] at made
      cases made
  | ok layout =>
      rw [isLayout] at made
      cases made
      exact ⟨(sound_empty layout).size_eq, (sound_empty layout).total_eq, Nat.zero_le _⟩

theorem sound_of_reachable {collector : Collector} (reachable : collector.Reachable) :
    collector.Sound := by
  induction reachable with
  | empty layout => exact sound_empty layout
  | made made => exact sound_of_setup made
  | recorded _ value count inductionHypothesis =>
      exact kept_induction inductionHypothesis fun _ => sound_recordMany inductionHypothesis
  | cleared _ inductionHypothesis => exact sound_cleared inductionHypothesis

end Collector

namespace Histogram

theorem sound_of_setup {setup : Setup} {histogram : Histogram}
    (made : setup.histogram = .ok histogram) : histogram.Sound := by
  unfold Setup.histogram at made
  cases isLayout : setup.checkedLayout with
  | error fault =>
      rw [isLayout] at made
      cases made
  | ok layout =>
      rw [isLayout] at made
      cases made
      exact sound_equip setup (sound_empty layout)

theorem sound_of_restored {setup : Setup} {counters : Array Nat} {histogram : Histogram}
    (made : setup.histogramWith counters = .ok histogram) : histogram.Sound := by
  unfold Setup.histogramWith at made
  cases isLayout : setup.checkedLayout with
  | error fault =>
      rw [isLayout] at made
      cases made
  | ok layout =>
      rw [isLayout] at made
      cases isHistogram : Histogram.ofCounters layout counters with
      | error fault =>
          simp only [isHistogram, bind, Except.bind] at made
          cases made
      | ok plain =>
          simp only [isHistogram, bind, Except.bind] at made
          cases made
          exact sound_equip setup (sound_ofCounters isHistogram)

/-- Every operation keeps the invariant, so every run of them does. -/
theorem sound_of_reachable {histogram : Histogram} (reachable : histogram.Reachable) :
    histogram.Sound := by
  induction reachable with
  | empty layout => exact sound_empty layout
  | made made => exact sound_of_setup made
  | ofCounters made => exact sound_ofCounters made
  | restored made => exact sound_of_restored made
  | snapshot source => exact Collector.sound_snapshot (Collector.sound_of_reachable source)
  | recorded _ value inductionHypothesis =>
      exact kept_induction inductionHypothesis fun _ => sound_recordMany inductionHypothesis
  | recordedMany _ value count inductionHypothesis =>
      exact kept_induction inductionHypothesis fun _ => sound_recordMany inductionHypothesis
  | recordedQuantity _ quantity inductionHypothesis =>
      exact kept_induction inductionHypothesis fun _ => sound_recordQuantity inductionHypothesis
  | merged _ _ inductionHypothesis otherHypothesis =>
      exact kept_induction inductionHypothesis fun _ =>
        sound_merge inductionHypothesis otherHypothesis
  | cleared _ inductionHypothesis => exact sound_cleared inductionHypothesis

/-- The aggregates of a reachable histogram are what its counters say: there is one counter for each
cell, the total is their sum, and the extremes are the bounds of the lowest and of the highest cell
that hold a count, or zero if there is none. -/
theorem aggregates_of_reachable {histogram : Histogram} (reachable : histogram.Reachable) :
    histogram.counters.size = histogram.layout.cellCount ∧
    (histogram.total = sumOf histogram.counters ∧ sumOf histogram.counters ≤ Word.max) ∧
    ((∀ index, histogram.count index = 0) → histogram.minimum = 0 ∧ histogram.maximum = 0) ∧
    (∀ lowest, histogram.count lowest ≠ 0 → (∀ index < lowest, histogram.count index = 0) →
      histogram.minimum = histogram.start lowest) ∧
    (∀ highest, histogram.count highest ≠ 0 →
      (∀ index, highest < index → histogram.count index = 0) →
      histogram.maximum = histogram.layout.ceiling (histogram.start highest)) := by
  have sound := sound_of_reachable reachable
  refine ⟨sound.size_eq, ⟨sound.total_eq, sound.total_eq ▸ sound.total_le⟩, ?_, ?_, ?_⟩
  · intro allZero
    exact extremes_of_held_eq_empty sound (held_eq_empty_iff.mpr allZero)
  · intro lowest isHeld below
    apply minimum_eq_start sound
    refine ⟨isHeld, ?_⟩
    intro index indexHeld
    by_contra before
    exact indexHeld (below index (Nat.lt_of_not_le before))
  · intro highest isHeld above
    apply maximum_eq_ceiling sound
    refine ⟨isHeld, ?_⟩
    intro index indexHeld
    by_contra after
    exact indexHeld (above index (Nat.lt_of_not_le after))

/-- A histogram after a recording, a refused recording and a merge. -/
def sample : Histogram :=
  let recorded := kept (empty .dyadic) ((empty .dyadic).recordMany 6 2)
  let refused := kept recorded (recorded.record 9)
  kept refused (refused.merge (kept (empty .dyadic) ((empty .dyadic).recordMany 3 1)))

theorem sample_reachable : sample.Reachable :=
  .merged (.recorded (.recordedMany (.empty _) 6 2) 9) (.recordedMany (.empty _) 3 1)

/-- A histogram of values of the first unit, after a recording that was refused. -/
def firstUnit : Histogram :=
  let recorded := kept (empty .fours) ((empty .fours).recordMany 3 2)
  kept recorded (recorded.record 128)

theorem firstUnit_reachable : firstUnit.Reachable := .recorded (.recordedMany (.empty .fours) 3 2) 128

/-- The same with a value beyond the first unit, which came by a merge. -/
def mixed : Histogram :=
  kept firstUnit (firstUnit.merge (kept (empty .fours) ((empty .fours).recordMany 13 1)))

/-- The least word kept is neutral before the merge and 12 after it, but the minimum is 0. -/
theorem mixed_aggregates :
    mixed.Reachable ∧ firstUnit.extent = ⟨Word.max, 3⟩ ∧ mixed.extent = ⟨12, 15⟩ ∧
      mixed.counters.size = 6 ∧ mixed.total = 3 ∧ mixed.minimum = 0 ∧ mixed.maximum = 15 := by
  have reachable : mixed.Reachable :=
    .merged firstUnit_reachable (.recordedMany (.empty .fours) 13 1)
  obtain ⟨size, ⟨total, -⟩, -, minimum, maximum⟩ := aggregates_of_reachable reachable
  have cells : mixed.layout.cellCount = 6 := by decide +kernel
  have sum : sumOf mixed.counters = 3 := by decide +kernel
  have lowest : mixed.start 0 = 0 := by decide +kernel
  have highest : mixed.layout.ceiling (mixed.start 2) = 15 := by decide +kernel
  have counted : ∀ index < 6, 2 < index → mixed.count index = 0 := by decide +kernel
  have above : ∀ index, 2 < index → mixed.count index = 0 := by
    intro index after
    rcases lt_or_ge index 6 with inside | beyond
    · exact counted index inside after
    · exact getD_eq_zero_of_size_le (by omega)
  exact ⟨reachable, by decide +kernel, by decide +kernel, size.trans cells, total.trans sum,
    (minimum 0 (by decide +kernel) (by simp)).trans lowest,
    (maximum 2 (by decide +kernel) above).trans highest⟩

end Histogram

end LogLinear
