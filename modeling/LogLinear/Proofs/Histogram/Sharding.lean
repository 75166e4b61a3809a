import LogLinear.Proofs.Histogram.Union

/-!
Contract: recording in several histograms that are merged afterwards.

Owns:
- the ways to distribute records over histograms and to merge these in pairs;
- the result of each such way, which is that of recording everything in one histogram.

Does not own: the laws of recordings and merges. `LogLinear.Proofs.Histogram.Union` has them.
-/

namespace LogLinear

/-- Nothing recorded, with the given rule and ratio. -/
def Histogram.fresh (layout : Layout) (excess : Excess) (ratio : Float) : Histogram :=
  { Histogram.empty layout with excess := excess, ratio := ratio }

/-- A way to record in several histograms. Each shard is a fresh histogram with records of its own,
in their order, and shards that were merged are merged further. -/
inductive Sharding where
  | shard (records : List (Nat × Nat))
  | merge (left right : Sharding)

namespace Sharding

/-- All records, from the first shard to the last. -/
def records : Sharding → List (Nat × Nat)
  | shard records => records
  | merge left right => left.records ++ right.records

/-- The histogram at the end, or the first refusal. -/
def run (fresh : Histogram) : Sharding → Except Fault Histogram
  | shard records => fresh.recordEach records
  | merge left right => do
    let leftMerged ← left.run fresh
    let rightMerged ← right.run fresh
    leftMerged.merge rightMerged

end Sharding

namespace Histogram

variable (layout : Layout) (excess : Excess) (ratio : Float)

theorem sound_fresh : (fresh layout excess ratio).Sound :=
  ⟨(sound_empty layout).size_eq, (sound_empty layout).total_eq, Nat.zero_le _,
    (sound_empty layout).spans⟩

theorem sound_fresh_tallyEach {records : List (Nat × Nat)} (room : countSum records ≤ Word.max) :
    ((fresh layout excess ratio).tallyEach records).Sound :=
  sound_tallyEach (sound_fresh layout excess ratio)
    (by rwa [show (fresh layout excess ratio).total = 0 from rfl, Nat.zero_add])

theorem total_fresh_tallyEach (records : List (Nat × Nat)) :
    ((fresh layout excess ratio).tallyEach records).total = countSum records := by
  rw [total_tallyEach]
  exact Nat.zero_add _

theorem recordEach_fresh {records : List (Nat × Nat)}
    (admitted : ∀ record ∈ records, excess.accept layout record.1 ≠ none) :
    (fresh layout excess ratio).recordEach records =
      if countSum records ≤ Word.max then .ok ((fresh layout excess ratio).tallyEach records)
      else .error .overflow := by
  have checked := recordEach_eq (sound_fresh layout excess ratio) admitted
  rwa [show (fresh layout excess ratio).total = 0 from rfl, Nat.zero_add] at checked

/-- Merging what two lists left is recording the one list after the other. -/
theorem merge_fresh {first second : List (Nat × Nat)} (firstRoom : countSum first ≤ Word.max)
    (secondRoom : countSum second ≤ Word.max) :
    ((fresh layout excess ratio).tallyEach first).merge
        ((fresh layout excess ratio).tallyEach second) =
      if countSum (first ++ second) ≤ Word.max then
        .ok ((fresh layout excess ratio).tallyEach (first ++ second))
      else .error .overflow := by
  have leftSound := sound_fresh_tallyEach layout excess ratio firstRoom
  have rightSound := sound_fresh_tallyEach layout excess ratio secondRoom
  have leftLayout := layout_tallyEach (fresh layout excess ratio) first
  have rightLayout := layout_tallyEach (fresh layout excess ratio) second
  have size : ((fresh layout excess ratio).tallyEach first).counters.size =
      (fresh layout excess ratio).counters.size := by
    rw [leftSound.size_eq, leftLayout, (sound_fresh layout excess ratio).size_eq]
  have whole : ((fresh layout excess ratio).tallyEach first).united
        ((fresh layout excess ratio).tallyEach second) =
      (fresh layout excess ratio).tallyEach (first ++ second) := by
    rw [united_tallyEach leftSound leftLayout size,
      united_empty size leftSound.spans.least_le (getD_replicate _) rfl rfl, tallyEach_append]
  rw [merge, if_pos (leftLayout.trans rightLayout.symm),
    mergeCounters_eq leftSound rightSound (leftLayout.trans rightLayout.symm), whole,
    total_fresh_tallyEach, total_fresh_tallyEach, countSum_append]

end Histogram

namespace Sharding

open Histogram

variable {layout : Layout} {excess : Excess} (ratio : Float)

/-- A run succeeds if and only if the sum of all counts is a word, whatever the shards are. -/
theorem run_eq {sharding : Sharding}
    (admitted : ∀ record ∈ sharding.records, excess.accept layout record.1 ≠ none) :
    sharding.run (fresh layout excess ratio) =
      if countSum sharding.records ≤ Word.max then
        .ok ((fresh layout excess ratio).tallyEach sharding.records)
      else .error .overflow := by
  induction sharding with
  | shard records => exact recordEach_fresh layout excess ratio admitted
  | merge left right leftHypothesis rightHypothesis =>
      have leftRun := leftHypothesis (by
        intro record member
        exact admitted record (List.mem_append_left _ member))
      have rightRun := rightHypothesis (by
        intro record member
        exact admitted record (List.mem_append_right _ member))
      have sum := countSum_append left.records right.records
      rw [run, leftRun, records]
      by_cases leftRoom : countSum left.records ≤ Word.max
      · rw [if_pos leftRoom, rightRun]
        by_cases rightRoom : countSum right.records ≤ Word.max
        · rw [if_pos rightRoom]
          exact merge_fresh layout excess ratio leftRoom rightRoom
        · rw [if_neg rightRoom, if_neg (by omega)]
          rfl
      · rw [if_neg leftRoom, if_neg (by omega)]
        rfl

/-- Sharded recording is exact. However records that the rule admits are distributed over fresh
histograms, ordered within them and merged, the end is the very histogram that recorded them all in
their first order, if the sum of their counts is a word; if it is not, every such way ends with an
overflow. -/
theorem run_eq_recordEach {records : List (Nat × Nat)} {sharding : Sharding}
    (admitted : ∀ record ∈ records, excess.accept layout record.1 ≠ none)
    (distributed : sharding.records.Perm records) :
    ((records.map Prod.snd).sum ≤ Word.max →
      ∃ whole, (fresh layout excess ratio).recordEach records = .ok whole ∧
        sharding.run (fresh layout excess ratio) = .ok whole) ∧
    (Word.max < (records.map Prod.snd).sum →
      sharding.run (fresh layout excess ratio) = .error .overflow) := by
  have shardsAdmitted : ∀ record ∈ sharding.records, excess.accept layout record.1 ≠ none := by
    intro record member
    exact admitted record (distributed.mem_iff.mp member)
  have whole := recordEach_fresh layout excess ratio admitted
  rw [run_eq ratio shardsAdmitted, countSum_perm distributed, tallyEach_perm _ distributed]
  constructor
  · intro room
    exact ⟨_, whole.trans (if_pos room), if_pos room⟩
  · intro tooMany
    exact if_neg (Nat.not_le_of_lt tooMany)

/-- Two shards with a clamped value and an empty record, and two whose counts are too many. -/
theorem run_two_shards :
    ((∀ record ∈ [(9, 3), (0, 0), (2, 5)], Excess.clamp.accept .dyadic record.1 ≠ none) ∧
      (merge (shard [(2, 5)]) (shard [(0, 0), (9, 3)])).records.Perm [(9, 3), (0, 0), (2, 5)]) ∧
    (∃ whole, (fresh .dyadic .clamp 1.0).recordEach [(9, 3), (0, 0), (2, 5)] = .ok whole ∧
      (merge (shard [(2, 5)]) (shard [(0, 0), (9, 3)])).run (fresh .dyadic .clamp 1.0) =
        .ok whole) ∧
    (merge (shard [(3, 1)]) (shard [(3, Word.max)])).run (fresh .dyadic .reject 1.0) =
      .error .overflow := by
  have admitted : ∀ record ∈ [(9, 3), (0, 0), (2, 5)],
      Excess.clamp.accept .dyadic record.1 ≠ none := by decide
  have distributed : (merge (shard [(2, 5)]) (shard [(0, 0), (9, 3)])).records.Perm
      [(9, 3), (0, 0), (2, 5)] := by decide
  have tooMany : ∀ record ∈ [(3, 1), (3, Word.max)],
      Excess.reject.accept .dyadic record.1 ≠ none := by decide
  exact ⟨⟨admitted, distributed⟩, (run_eq_recordEach 1.0 admitted distributed).1 (by decide),
    (run_eq_recordEach 1.0 tooMany (.refl _)).2 (by decide)⟩

end Sharding

end LogLinear
