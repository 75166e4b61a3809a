import LogLinear.Proofs.Histogram.Effect

/-!
Contract: merging conserves counts, whatever the two layouts are.

Owns:
- the counters after several recordings, each of which grows by what is sent to it;
- the records of a histogram as the terms of sums over its counters;
- the causes for which several recordings are refused, wherever the first refusal is;
- the counter to which a merge sends the count at an index, and the effect of a merge.

Does not own: what a merge between layouts does to the recorded values.
`LogLinear.Proofs.Histogram.Finer` compares it with recording them.
-/

namespace LogLinear.Histogram

open Finset

/-! ### The records of a histogram -/

theorem sum_records (histogram : Histogram) (term : Nat × Nat → Nat)
    (zero : ∀ value, term (value, 0) = 0) :
    (histogram.records.map term).sum =
      ∑ index ∈ range histogram.counters.size,
        term (histogram.start index, histogram.count index) := by
  rw [records, List.map_map]
  exact sum_gather histogram.counters _ (fun index => zero (histogram.start index)) _

theorem mem_records {histogram : Histogram} {record : Nat × Nat} :
    record ∈ histogram.records ↔
      ∃ index, histogram.count index ≠ 0 ∧
        record = (histogram.start index, histogram.count index) := by
  rw [records, List.mem_map]
  constructor
  · rintro ⟨⟨index, count⟩, member, rfl⟩
    obtain ⟨-, isCount, nonzero⟩ := Tally.mem_gather.mp member
    change count = histogram.count index at isCount
    subst isCount
    exact ⟨index, nonzero, rfl⟩
  · rintro ⟨index, nonzero, rfl⟩
    exact ⟨⟨index, histogram.count index⟩,
      Tally.mem_gather.mpr ⟨lt_size_of_getD_ne_zero nonzero, rfl, nonzero⟩, rfl⟩

theorem countSum_records {histogram : Histogram} (sound : histogram.Sound) :
    countSum histogram.records = histogram.total := by
  rw [countSum, sum_records histogram Prod.snd fun _ => rfl, sound.total_eq, sumOf_eq_sum_range]
  rfl

/-! ### Several recordings -/

/-- What records, each brought into the range, send to the counter at an index. -/
def sent (layout : Layout) (records : List (Nat × Nat)) (index : Nat) : Nat :=
  (records.map fun record =>
    if layout.cell (min record.1 layout.highest) = index then record.2 else 0).sum

/-- Recordings leave the rule, the ratio and the number of counters alone. -/
theorem tallyEach_frame (histogram : Histogram) (records : List (Nat × Nat)) :
    (histogram.tallyEach records).excess = histogram.excess ∧
      (histogram.tallyEach records).ratio = histogram.ratio ∧
      (histogram.tallyEach records).counters.size = histogram.counters.size := by
  induction records generalizing histogram with
  | nil => exact ⟨rfl, rfl, rfl⟩
  | cons record rest inductionHypothesis =>
      have later :=
        inductionHypothesis (histogram.tally (min record.1 histogram.layout.highest) record.2)
      exact ⟨later.1, later.2.1, later.2.2.trans (Array.size_modify ..)⟩

theorem count_tallyEach {histogram : Histogram}
    (size : histogram.counters.size = histogram.layout.cellCount) (records : List (Nat × Nat))
    (index : Nat) :
    (histogram.tallyEach records).count index =
      histogram.count index + sent histogram.layout records index := by
  induction records generalizing histogram with
  | nil => rfl
  | cons record rest inductionHypothesis =>
      have inside : histogram.layout.cell (min record.1 histogram.layout.highest) <
          histogram.counters.size :=
        (histogram.layout.cell_lt_cellCount (Nat.min_le_right _ _)).trans_eq size.symm
      have later := @inductionHypothesis
        (histogram.tally (min record.1 histogram.layout.highest) record.2)
        ((Array.size_modify ..).trans size)
      rw [tallyEach_cons, later, count_tally _ _ _ _ inside, Nat.add_assoc]
      simp only [sent, List.map_cons, List.sum_cons, eq_comm (a := index)]
      rfl

/-- A list of records is refused for a value in it that is out of range, or because the total has no
room for all counts; never for one counter alone. -/
theorem recordEach_refused {histogram : Histogram} (sound : histogram.Sound)
    {records : List (Nat × Nat)} {fault : Fault}
    (refused : histogram.recordEach records = .error fault) :
    (fault = .overflow ∧ Word.max < histogram.total + countSum records) ∨
      (fault = .outOfRange ∧ histogram.excess = .reject ∧
        ∃ record ∈ records, histogram.layout.highest < record.1) := by
  induction records generalizing histogram with
  | nil => cases refused
  | cons record rest inductionHypothesis =>
      rw [recordEach_cons] at refused
      rw [countSum_cons]
      by_cases rejected : histogram.layout.highest < record.1 ∧ histogram.excess = .reject
      · rw [recordMany_of_rejected rejected] at refused
        cases refused
        exact .inr ⟨rfl, rejected.2, record, List.mem_cons_self, rejected.1⟩
      · rw [recordMany_of_admitted sound rejected] at refused
        split at refused
        · rename_i room
          have tallied := sound_tally sound (Nat.min_le_right record.1 _) room
          rcases inductionHypothesis tallied refused with ⟨isOverflow, full⟩ | outOfRange
          · exact .inl ⟨isOverflow, full.trans_eq (Nat.add_assoc ..)⟩
          · obtain ⟨isOutOfRange, rejects, other, member, above⟩ := outOfRange
            exact .inr ⟨isOutOfRange, rejects, other, List.mem_cons_of_mem _ member, above⟩
        · cases refused
          exact .inl ⟨rfl, by omega⟩

theorem admitted_of_recordEach {histogram after : Histogram} {records : List (Nat × Nat)}
    (recorded : histogram.recordEach records = .ok after) :
    ∀ record ∈ records, histogram.excess.accept histogram.layout record.1 ≠ none := by
  induction records generalizing histogram with
  | nil => exact List.forall_mem_nil _
  | cons record rest inductionHypothesis =>
      rw [recordEach_cons] at recorded
      cases first : histogram.recordMany record.1 record.2 with
      | error fault =>
          rw [first] at recorded
          cases recorded
      | ok next =>
          obtain ⟨accepted, isAccepted, -, rfl⟩ := recordMany_eq_ok_iff.mp first
          rw [first] at recorded
          have later := @inductionHypothesis (histogram.tally accepted record.2) recorded
          exact List.forall_mem_cons.mpr ⟨isAccepted ▸ Option.some_ne_none accepted, later⟩

theorem recordEach_eq_ok_iff {histogram after : Histogram} (sound : histogram.Sound)
    {records : List (Nat × Nat)} :
    histogram.recordEach records = .ok after ↔
      (∀ record ∈ records, histogram.excess.accept histogram.layout record.1 ≠ none) ∧
        histogram.total + countSum records ≤ Word.max ∧ histogram.tallyEach records = after := by
  constructor
  · intro recorded
    have admitted := admitted_of_recordEach recorded
    rw [recordEach_eq sound admitted] at recorded
    split at recorded
    · rename_i room
      exact ⟨admitted, room, Except.ok.inj recorded⟩
    · cases recorded
  · rintro ⟨admitted, room, rfl⟩
    rw [recordEach_eq sound admitted, if_pos room]

/-! ### Merges -/

/-- The counter to which a merge sends the count at an index of another histogram. For one layout it
is the counter at the same index. For two it is that of the value that is let in for the least one of
the cell, if there is one. -/
def destination? (histogram other : Histogram) (index : Nat) : Option Nat :=
  if histogram.layout = other.layout then some index
  else (histogram.excess.accept histogram.layout (other.start index)).map histogram.layout.cell

/-- The histogram after is the one before with all counts of another one. -/
structure Absorbs (before other after : Histogram) : Prop where
  layout_eq : after.layout = before.layout
  excess_eq : after.excess = before.excess
  ratio_eq : after.ratio = before.ratio
  size_eq : after.counters.size = before.counters.size
  total_eq : after.total = before.total + other.total
  count_eq : ∀ index, after.count index = before.count index +
    ∑ source ∈ range other.counters.size with before.destination? other source = some index,
      other.count source

section Merges

variable {histogram other : Histogram} (sound : histogram.Sound) (otherSound : other.Sound)
include sound otherSound

theorem absorbs_united (same : histogram.layout = other.layout) :
    histogram.Absorbs other (histogram.united other) where
  layout_eq := rfl
  excess_eq := rfl
  ratio_eq := rfl
  size_eq := size_pairwiseSums (by rw [sound.size_eq, otherSound.size_eq, same])
  total_eq := rfl
  count_eq index := by
    have size : histogram.counters.size = other.counters.size := by
      rw [sound.size_eq, otherSound.size_eq, same]
    have sum : ∑ source ∈ range other.counters.size with
        histogram.destination? other source = some index, other.count source =
          other.count index := by
      simp only [destination?, if_pos same, Option.some_inj, sum_filter, sum_ite_eq', mem_range]
      split_ifs with inside
      · rfl
      · exact (getD_eq_zero_of_size_le (Nat.le_of_not_lt inside)).symm
    rw [sum]
    exact getD_pairwiseSums size index

omit otherSound in
/-- Only the counters that are not zero are recorded, and each of these is let in. -/
theorem absorbs_tallyEach (differ : histogram.layout ≠ other.layout)
    (total : countSum other.records = other.total)
    (admitted : ∀ record ∈ other.records,
      histogram.excess.accept histogram.layout record.1 ≠ none) :
    histogram.Absorbs other (histogram.tallyEach other.records) where
  layout_eq := layout_tallyEach histogram other.records
  excess_eq := (histogram.tallyEach_frame other.records).1
  ratio_eq := (histogram.tallyEach_frame other.records).2.1
  size_eq := (histogram.tallyEach_frame other.records).2.2
  total_eq := by rw [total_tallyEach, total]
  count_eq index := by
    rw [count_tallyEach sound.size_eq, sent, sum_records other _ fun _ => ite_self 0, sum_filter]
    congr 1
    apply sum_congr rfl
    intro source _
    by_cases none : other.count source = 0
    · rw [none, ite_self, ite_self]
    · have accepted := Excess.accept_eq_min
        (admitted _ (mem_records.mpr ⟨source, none, rfl⟩))
      simp only [destination?, if_neg differ, accepted, Option.map_some, Option.some_inj]

theorem absorbs_of_merge {after : Histogram} (merged : histogram.merge other = .ok after) :
    histogram.total + other.total ≤ Word.max ∧ histogram.Absorbs other after := by
  unfold merge at merged
  split at merged
  · rename_i same
    rw [mergeCounters_eq sound otherSound same] at merged
    split at merged
    · rename_i room
      cases merged
      exact ⟨room, absorbs_united sound otherSound same⟩
    · cases merged
  · rename_i differ
    obtain ⟨admitted, room, rfl⟩ := (recordEach_eq_ok_iff sound).mp merged
    rw [countSum_records otherSound] at room
    exact ⟨room, absorbs_tallyEach sound differ (countSum_records otherSound) admitted⟩

theorem merge_refused {fault : Fault} (refused : histogram.merge other = .error fault) :
    (fault = .overflow ∧ Word.max < histogram.total + other.total) ∨
      (fault = .outOfRange ∧ histogram.layout ≠ other.layout ∧ histogram.excess = .reject ∧
        ∃ index, other.count index ≠ 0 ∧ histogram.layout.highest < other.start index) := by
  unfold merge at refused
  split at refused
  · rename_i same
    rw [mergeCounters_eq sound otherSound same] at refused
    split at refused
    · cases refused
    · rename_i full
      cases refused
      exact .inl ⟨rfl, Nat.lt_of_not_le full⟩
  · rename_i differ
    rcases recordEach_refused sound refused with ⟨isOverflow, full⟩ | outOfRange
    · exact .inl ⟨isOverflow, full.trans_eq (by rw [countSum_records otherSound])⟩
    · obtain ⟨isOutOfRange, rejects, record, member, above⟩ := outOfRange
      obtain ⟨index, nonzero, rfl⟩ := mem_records.mp member
      exact .inr ⟨isOutOfRange, differ, rejects, index, nonzero, above⟩

end Merges

/-- Merging reachable histograms is all or nothing, and conserves counts. A merge that succeeds adds
the totals, and adds to each counter just the counts that are sent to it: under one layout the one at
its own index, otherwise those of the cells whose least values are recorded there under the rule for
values above the range. A merge is refused as an overflow only if the sum of the totals is not a word,
and it is always refused then; it is refused as out of range only if the layouts differ, the rule
rejects, and a cell that holds a count starts above the highest trackable value. In place, a refused
merge leaves every field as it was, however many counts it has added by then. -/
theorem merge_of_reachable {histogram other : Histogram} (reachable : histogram.Reachable)
    (otherReachable : other.Reachable) :
    (Change.merge other).run histogram = Change.whole histogram (histogram.merge other) ∧
    (∀ after, histogram.merge other = .ok after → histogram.Absorbs other after) ∧
    (∀ fault, histogram.merge other = .error fault →
      (fault = .overflow ∧ Word.max < histogram.total + other.total) ∨
      (fault = .outOfRange ∧ histogram.layout ≠ other.layout ∧ histogram.excess = .reject ∧
        ∃ index, other.count index ≠ 0 ∧ histogram.layout.highest < other.start index)) ∧
    (Word.max < histogram.total + other.total → ∃ fault, histogram.merge other = .error fault) := by
  have sound := sound_of_reachable reachable
  have otherSound := sound_of_reachable otherReachable
  refine ⟨Change.merge_run sound otherSound, ?_, ?_, ?_⟩
  · intro after merged
    exact (absorbs_of_merge sound otherSound merged).2
  · intro fault refused
    exact merge_refused sound otherSound refused
  · intro tooMany
    cases merged : histogram.merge other with
    | ok after => exact absurd (absorbs_of_merge sound otherSound merged).1 tooMany.not_ge
    | error fault => exact ⟨fault, rfl⟩

/-- Two recordings that a layout with wide cells may not tell apart. -/
def paired (value count : Nat) : Histogram :=
  let first := kept (empty .decimal) ((empty .decimal).recordMany 5 4)
  kept first (first.recordMany value count)

theorem paired_reachable (value count : Nat) : (paired value count).Reachable :=
  .recordedMany (.recordedMany (.empty _) 5 4) value count

/-- Two counters that are sent to one, a second counter that is out of range, and a sum that is not a
word. -/
theorem sample_merge_paired :
    (sample.Reachable ∧ ∀ value count, (paired value count).Reachable) ∧
    (∃ after, sample.merge (paired 6 3) = .ok after ∧ after.total = 10 ∧ after.count 2 = 1 ∧
      after.count 3 = 9) ∧
    (Change.merge (paired 20 1)).run sample = .error .outOfRange sample ∧
    ∃ fault, sample.merge (paired 6 (Word.max - 4)) = .error fault := by
  obtain ⟨-, absorbs, -, -⟩ := merge_of_reachable sample_reachable (paired_reachable 6 3)
  obtain ⟨inPlace, -, causes, -⟩ := merge_of_reachable sample_reachable (paired_reachable 20 1)
  obtain ⟨-, -, -, tooMany⟩ :=
    merge_of_reachable sample_reachable (paired_reachable 6 (Word.max - 4))
  have merges : (sample.merge (paired 6 3)).isOk = true := by decide +kernel
  have refuses : (sample.merge (paired 20 1)).isOk = false := by decide +kernel
  refine ⟨⟨sample_reachable, paired_reachable⟩, ?_, ?_, tooMany (by decide +kernel)⟩
  · cases merged : sample.merge (paired 6 3) with
    | error fault =>
        rw [merged] at merges
        cases merges
    | ok after =>
        have effect := absorbs after merged
        refine ⟨after, rfl, ?_, ?_, ?_⟩
        · rw [effect.total_eq]
          decide +kernel
        · rw [effect.count_eq]
          decide +kernel
        · rw [effect.count_eq]
          decide +kernel
  · cases refused : sample.merge (paired 20 1) with
    | ok after =>
        rw [refused] at refuses
        cases refuses
    | error fault =>
        rcases causes fault refused with ⟨-, full⟩ | ⟨rfl, -⟩
        · exact absurd full (by decide +kernel)
        · rw [inPlace, refused]
          rfl

end LogLinear.Histogram
