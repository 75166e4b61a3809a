import LogLinear.Histogram.Merge
import LogLinear.Proofs.Histogram.Span
import LogLinear.Setup

/-!
Contract: what every operation on histograms and collectors keeps true.

Owns:
- the invariant: one counter for each cell, a total that is their sum, and an extent that spans the
  cells which hold a count;
- one lemma for each operation, which says that it keeps the invariant.

Does not own: runs of several operations. `LogLinear.Proofs.Histogram.Reachable` has them.
-/

namespace LogLinear

namespace Histogram

/-- The invariant of histograms. -/
structure Sound (histogram : Histogram) : Prop where
  size_eq : histogram.counters.size = histogram.layout.cellCount
  total_eq : histogram.total = sumOf histogram.counters
  total_le : histogram.total ≤ Word.max
  spans : histogram.layout.Spans histogram.held histogram.extent

theorem held_eq_empty_iff {histogram : Histogram} :
    histogram.held = ∅ ↔ ∀ index, histogram.count index = 0 := by
  simp [held, Set.eq_empty_iff_forall_notMem]

theorem held_eq_empty_iff_total {histogram : Histogram} (sound : histogram.Sound) :
    histogram.held = ∅ ↔ histogram.total = 0 := by
  rw [held_eq_empty_iff, sound.total_eq]
  exact sumOf_eq_zero_iff.symm

theorem count_le_total {histogram : Histogram} (sound : histogram.Sound) (index : Nat) :
    histogram.count index ≤ histogram.total := by
  rw [sound.total_eq]
  exact getD_le_sumOf _ index

/-- The counter of a value has room whenever the total has. -/
theorem hasRoom_iff {histogram : Histogram} (sound : histogram.Sound) {value count : Nat} :
    histogram.HasRoom value count ↔ histogram.total + count ≤ Word.max := by
  constructor
  · exact fun room => room.2
  · intro room
    have below := count_le_total sound (histogram.layout.cell value)
    exact ⟨by omega, room⟩

theorem sound_empty (layout : Layout) : (empty layout).Sound where
  size_eq := Array.size_replicate
  total_eq := (sumOf_replicate _).symm
  total_le := Nat.zero_le _
  spans := by
    have none : (empty layout).held = ∅ := held_eq_empty_iff.mpr (getD_replicate _)
    rw [none]
    exact layout.spans_empty

theorem sound_cleared {histogram : Histogram} (sound : histogram.Sound) :
    histogram.cleared.Sound where
  size_eq := Array.size_replicate.trans sound.size_eq
  total_eq := (sumOf_replicate _).symm
  total_le := Nat.zero_le _
  spans := by
    have none : histogram.cleared.held = ∅ := held_eq_empty_iff.mpr (getD_replicate _)
    rw [none]
    exact histogram.layout.spans_empty

/-- The rule and the ratio have no part in the invariant. -/
theorem sound_equip (setup : Setup) {histogram : Histogram} (sound : histogram.Sound) :
    (setup.equip histogram).Sound :=
  ⟨sound.size_eq, sound.total_eq, sound.total_le, sound.spans⟩

/-! ### Recording -/

theorem cell_lt_size {histogram : Histogram} (sound : histogram.Sound) {value : Nat}
    (trackable : value ≤ histogram.layout.highest) :
    histogram.layout.cell value < histogram.counters.size := by
  rw [sound.size_eq]
  exact histogram.layout.cell_lt_cellCount trackable

theorem size_pos {histogram : Histogram} (sound : histogram.Sound) :
    0 < histogram.counters.size :=
  Nat.zero_lt_of_lt (cell_lt_size sound (Nat.zero_le histogram.layout.highest))

theorem held_tally {histogram : Histogram} (sound : histogram.Sound) {value count : Nat}
    (trackable : value ≤ histogram.layout.highest) (some : count ≠ 0) :
    (histogram.tally value count).held =
      histogram.held ∪ {histogram.layout.cell value} := by
  ext index
  have counts := histogram.count_tally value count index (cell_lt_size sound trackable)
  simp only [held, Set.mem_union, Set.mem_ofPred_eq, Set.mem_singleton_iff, counts]
  split <;> omega

theorem tally_zero (histogram : Histogram) (value : Nat) : histogram.tally value 0 = histogram := by
  have same : histogram.counters.modify (histogram.layout.cell value) (· + 0) =
      histogram.counters := by
    apply Array.ext (Array.size_modify ..)
    intro index _ _
    simp [Array.getElem_modify]
  rw [tally, same]
  rfl

theorem sound_tally {histogram : Histogram} (sound : histogram.Sound) {value count : Nat}
    (trackable : value ≤ histogram.layout.highest) (room : histogram.total + count ≤ Word.max) :
    (histogram.tally value count).Sound := by
  by_cases none : count = 0
  · subst none
    rw [tally_zero]
    exact sound
  · have inside := cell_lt_size sound trackable
    refine ⟨?_, ?_, room, ?_⟩
    · exact (Array.size_modify ..).trans sound.size_eq
    · simp only [tally, sumOf_modify_add _ _ inside, sound.total_eq]
    · have covered := histogram.layout.spans_cover sound.spans
        (trackable.trans histogram.layout.highest_le)
      rw [held_tally sound trackable none]
      simp only [tally, if_neg none]
      exact covered

theorem sound_recordMany {histogram after : Histogram} {value count : Nat}
    (sound : histogram.Sound) (recorded : histogram.recordMany value count = .ok after) :
    after.Sound := by
  obtain ⟨accepted, isAccepted, room, rfl⟩ := recordMany_eq_ok_iff.mp recorded
  exact sound_tally sound (Excess.le_highest_of_accept isAccepted) room.2

theorem sound_recordQuantity {histogram after : Histogram} {quantity : Float}
    (sound : histogram.Sound) (recorded : histogram.recordQuantity quantity = .ok after) :
    after.Sound := by
  unfold recordQuantity at recorded
  split at recorded
  · simp at recorded
  · exact sound_recordMany sound recorded

theorem sound_recordEach {histogram after : Histogram} {records : List (Nat × Nat)}
    (sound : histogram.Sound) (recorded : histogram.recordEach records = .ok after) :
    after.Sound := by
  induction records generalizing histogram with
  | nil =>
      rw [recordEach_nil] at recorded
      cases recorded
      exact sound
  | cons record rest inductionHypothesis =>
      rw [recordEach_cons] at recorded
      cases first : histogram.recordMany record.1 record.2 with
      | error fault =>
          rw [first] at recorded
          cases recorded
      | ok next =>
          rw [first] at recorded
          exact inductionHypothesis (sound_recordMany sound first) recorded

/-! ### Merging -/

section Pairs

variable {left right : Histogram} (size : left.counters.size = right.counters.size)

include size

theorem size_pairwiseSums : (left.pairwiseSums right).size = left.counters.size := by
  rw [pairwiseSums, Array.size_zipWith]
  omega

theorem getD_pairwiseSums (index : Nat) :
    (left.pairwiseSums right).getD index 0 = left.count index + right.count index :=
  getD_zipWith_add size index

theorem sumOf_pairwiseSums :
    sumOf (left.pairwiseSums right) = sumOf left.counters + sumOf right.counters :=
  sumOf_zipWith_add size

theorem held_pairwiseSums :
    {index | (left.pairwiseSums right).getD index 0 ≠ 0} = left.held ∪ right.held := by
  ext index
  simp only [held, Set.mem_union, Set.mem_ofPred_eq, getD_pairwiseSums size]
  omega

end Pairs

theorem mergeCounters_eq_ok_iff {histogram other after : Histogram} :
    histogram.mergeCounters other = .ok after ↔
      ((histogram.pairwiseSums other).all (· ≤ Word.max) = true ∧
        histogram.total + other.total ≤ Word.max) ∧
      { histogram with
        counters := histogram.pairwiseSums other
        total := histogram.total + other.total
        extent := if other.total = 0 then histogram.extent
          else histogram.extent.join other.extent } = after := by
  unfold mergeCounters
  dsimp only
  split <;> simp_all

/-- An empty histogram adds nothing to the extent, whether or not this is seen from its total. -/
theorem join_extent_eq {histogram : Histogram} (sound : histogram.Sound) {extent : Extent}
    (word : extent.leastNonzero ≤ Word.max) :
    (if histogram.total = 0 then extent else extent.join histogram.extent) =
      extent.join histogram.extent := by
  split
  · rename_i none
    have spans := sound.spans
    rw [(held_eq_empty_iff_total sound).mpr none] at spans
    rw [histogram.layout.eq_empty_of_spans spans, Extent.join_empty word]
  · rfl

theorem sound_mergeCounters {histogram other after : Histogram} (sound : histogram.Sound)
    (otherSound : other.Sound) (same : histogram.layout = other.layout)
    (merged : histogram.mergeCounters other = .ok after) : after.Sound := by
  obtain ⟨⟨-, room⟩, rfl⟩ := mergeCounters_eq_ok_iff.mp merged
  have size : histogram.counters.size = other.counters.size := by
    rw [sound.size_eq, otherSound.size_eq, same]
  refine ⟨?_, ?_, room, ?_⟩
  · exact (size_pairwiseSums size).trans sound.size_eq
  · simp only [sumOf_pairwiseSums size, sound.total_eq, otherSound.total_eq]
  · simp only [join_extent_eq otherSound sound.spans.least_le]
    have joined := histogram.layout.spans_join sound.spans (same ▸ otherSound.spans)
    rw [← held_pairwiseSums size] at joined
    exact joined

theorem sound_merge {histogram other after : Histogram} (sound : histogram.Sound)
    (otherSound : other.Sound) (merged : histogram.merge other = .ok after) : after.Sound := by
  unfold merge at merged
  split at merged
  · rename_i same
    exact sound_mergeCounters sound otherSound same merged
  · exact sound_recordEach sound merged

/-! ### Counters from elsewhere -/

theorem sound_ofCounters {layout : Layout} {counters : Array Nat} {histogram : Histogram}
    (made : ofCounters layout counters = .ok histogram) : histogram.Sound := by
  unfold ofCounters at made
  split at made
  · rename_i size
    split at made
    · rename_i word
      cases made
      exact ⟨size, rfl, word, spans_extentOf size⟩
    · cases made
  · cases made

end Histogram

namespace Collector

/-- The invariant of collectors. -/
structure Sound (collector : Collector) : Prop where
  size_eq : collector.counters.size = collector.layout.cellCount
  total_eq : collector.total = Histogram.sumOf collector.counters
  total_le : collector.total ≤ Word.max

theorem sound_empty (layout : Layout) : (empty layout).Sound where
  size_eq := Array.size_replicate
  total_eq := (Histogram.sumOf_replicate _).symm
  total_le := Nat.zero_le _

theorem sound_cleared {collector : Collector} (sound : collector.Sound) :
    collector.cleared.Sound where
  size_eq := Array.size_replicate.trans sound.size_eq
  total_eq := (Histogram.sumOf_replicate _).symm
  total_le := Nat.zero_le _

/-- No counter exceeds the total, so none loses a carry as long as the total has room. -/
theorem modify_wrappingSum {collector : Collector} (sound : collector.Sound) {index count : Nat}
    (room : collector.total + count ≤ Word.max) :
    collector.counters.modify index (Word.wrappingSum · count) =
      collector.counters.modify index (· + count) := by
  apply Array.ext (by rw [Array.size_modify, Array.size_modify])
  intro place inside _
  rw [Array.size_modify] at inside
  rw [Array.getElem_modify, Array.getElem_modify]
  split
  · have below := Histogram.getD_le_sumOf collector.counters place
    rw [Histogram.getD_eq_getElem inside, ← sound.total_eq] at below
    exact Word.wrappingSum_of_le (by omega)
  · rfl

theorem sound_recordMany {collector after : Collector} {value count : Nat}
    (sound : collector.Sound) (recorded : collector.recordMany value count = .ok after) :
    after.Sound := by
  unfold recordMany at recorded
  split at recorded
  · cases recorded
  · rename_i accepted isAccepted
    split at recorded
    · rename_i room
      cases recorded
      have inside : collector.layout.cell accepted < collector.counters.size := by
        rw [sound.size_eq]
        exact collector.layout.cell_lt_cellCount (Excess.le_highest_of_accept isAccepted)
      refine ⟨?_, ?_, room⟩
      · exact (Array.size_modify ..).trans sound.size_eq
      · simp only [tally, modify_wrappingSum sound room,
          Histogram.sumOf_modify_add _ _ inside, sound.total_eq]
    · cases recorded

theorem sound_snapshot {collector : Collector} (sound : collector.Sound) :
    collector.snapshot.Sound := by
  have total : collector.snapshot.total = Histogram.sumOf collector.counters :=
    Word.cap_of_le (sound.total_eq ▸ sound.total_le)
  exact ⟨sound.size_eq, total, Word.cap_le _, Histogram.spans_extentOf sound.size_eq⟩

end Collector

end LogLinear
