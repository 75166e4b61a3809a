import LogLinear.Proofs.Collector.Mirror
import LogLinear.Proofs.Histogram.Union

/-!
Contract: histograms that count the same, but may keep other values for their extremes.

An extent is known up to equivalence only. Which values it holds depends on what was recorded, on
merges and on where the counters came from, while what is read from it depends on the counters
alone.

Owns:
- the relation of such histograms: they are sound, and all their fields but the extents are equal;
- recordings, merges and clearings, which keep the relation and are refused for both or for neither.

Does not own: runs of several operations.
-/

namespace LogLinear

/-- Two results of which either both are refusals for one cause, or neither is one and they are
related. -/
inductive Concur {α β : Type} (related : α → β → Prop) : Except Fault α → Except Fault β → Prop
  | refused (fault : Fault) : Concur related (.error fault) (.error fault)
  | accepted {left : α} {right : β} (holds : related left right) :
      Concur related (.ok left) (.ok right)

namespace Concur

variable {α β : Type} {related : α → β → Prop} {left : Except Fault α} {right : Except Fault β}

theorem mono {weaker : α → β → Prop} (concur : Concur related left right)
    (implies : ∀ one other, related one other → weaker one other) : Concur weaker left right := by
  cases concur with
  | refused fault => exact .refused fault
  | accepted holds => exact .accepted (implies _ _ holds)

theorem answer_eq (concur : Concur related left right) :
    Operation.answer left = Operation.answer right := by
  cases concur <;> rfl

theorem related_kept (concur : Concur related left right) {one : α} {other : β}
    (before : related one other) :
    related (kept one left) (kept other right) := by
  cases concur with
  | refused fault => exact before
  | accepted holds => exact holds

/-- Related results go on to related results if all related values do. -/
theorem bind {γ δ : Type} {later : γ → δ → Prop} {next : α → Except Fault γ}
    {otherNext : β → Except Fault δ} (concur : Concur related left right)
    (goesOn : ∀ one other, related one other → Concur later (next one) (otherNext other)) :
    Concur later (left >>= next) (right >>= otherNext) := by
  cases concur with
  | refused fault => exact .refused fault
  | accepted holds => exact goesOn _ _ holds

end Concur

namespace Histogram

/-- The histograms are sound and equal but for their extents. -/
structure Alike (left right : Histogram) : Prop where
  layout_eq : left.layout = right.layout
  excess_eq : left.excess = right.excess
  ratio_eq : left.ratio = right.ratio
  counters_eq : left.counters = right.counters
  total_eq : left.total = right.total
  leftSound : left.Sound
  rightSound : right.Sound

namespace Alike

variable {left right : Histogram}

variable (alike : left.Alike right)
include alike

theorem toMatches : left.Matches right := by
  obtain ⟨minimum, maximum⟩ :=
    extremes_eq alike.leftSound alike.rightSound alike.layout_eq alike.counters_eq
  exact ⟨alike.layout_eq, alike.counters_eq, alike.total_eq, minimum, maximum, alike.excess_eq,
    alike.ratio_eq⟩

theorem count_eq (index : Nat) : left.count index = right.count index := by
  rw [count, count, alike.counters_eq]

theorem hasRoom_iff {value count : Nat} : left.HasRoom value count ↔ right.HasRoom value count := by
  simp only [HasRoom, alike.count_eq, alike.layout_eq, alike.total_eq]

theorem tally {value count : Nat} (trackable : value ≤ left.layout.highest)
    (room : left.total + count ≤ Word.max) :
    (left.tally value count).Alike (right.tally value count) where
  layout_eq := alike.layout_eq
  excess_eq := alike.excess_eq
  ratio_eq := alike.ratio_eq
  counters_eq := by simp only [Histogram.tally, alike.counters_eq, alike.layout_eq]
  total_eq := congrArg (· + count) alike.total_eq
  leftSound := sound_tally alike.leftSound trackable room
  rightSound := sound_tally alike.rightSound (alike.layout_eq ▸ trackable) (alike.total_eq ▸ room)

theorem recordMany (value count : Nat) :
    Concur Alike (left.recordMany value count) (right.recordMany value count) := by
  unfold Histogram.recordMany
  rw [← alike.excess_eq, ← alike.layout_eq]
  cases isAccepted : left.excess.accept left.layout value with
  | none => exact .refused .outOfRange
  | some accepted =>
      simp only [← alike.hasRoom_iff]
      split
      next room => exact .accepted (alike.tally (Excess.le_highest_of_accept isAccepted) room.2)
      next => exact .refused .overflow

theorem recordEach (records : List (Nat × Nat)) :
    Concur Alike (left.recordEach records) (right.recordEach records) := by
  induction records generalizing left right with
  | nil => exact .accepted alike
  | cons record rest inductionHypothesis =>
      rw [recordEach_cons, recordEach_cons]
      exact (alike.recordMany record.1 record.2).bind fun _ _ next => inductionHypothesis next

theorem cleared : left.cleared.Alike right.cleared where
  layout_eq := alike.layout_eq
  excess_eq := alike.excess_eq
  ratio_eq := alike.ratio_eq
  counters_eq := by rw [Histogram.cleared, Histogram.cleared, alike.counters_eq]
  total_eq := rfl
  leftSound := sound_cleared alike.leftSound
  rightSound := sound_cleared alike.rightSound

theorem mergeCounters {other : Histogram} (otherSound : other.Sound)
    (same : left.layout = other.layout) :
    Concur Alike (left.mergeCounters other) (right.mergeCounters other) := by
  have leftMerged := mergeCounters_eq alike.leftSound otherSound same
  have rightMerged := mergeCounters_eq alike.rightSound otherSound (alike.layout_eq ▸ same)
  rw [← alike.total_eq] at rightMerged
  by_cases room : left.total + other.total ≤ Word.max
  · rw [if_pos room] at leftMerged rightMerged
    rw [leftMerged, rightMerged]
    refine .accepted ⟨alike.layout_eq, alike.excess_eq, alike.ratio_eq, ?_,
      congrArg (· + other.total) alike.total_eq,
      sound_mergeCounters alike.leftSound otherSound same leftMerged,
      sound_mergeCounters alike.rightSound otherSound (alike.layout_eq ▸ same) rightMerged⟩
    simp only [united, pairwiseSums, alike.counters_eq]
  · rw [if_neg room] at leftMerged rightMerged
    rw [leftMerged, rightMerged]
    exact .refused .overflow

theorem merge {other : Histogram} (otherSound : other.Sound) :
    Concur Alike (left.merge other) (right.merge other) := by
  unfold Histogram.merge
  rw [← alike.layout_eq]
  split
  next same => exact alike.mergeCounters otherSound same
  next => exact alike.recordEach other.records

end Alike

end Histogram

end LogLinear
