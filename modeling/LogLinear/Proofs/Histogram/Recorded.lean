import LogLinear.Proofs.Histogram.Reachable
import LogLinear.Proofs.Histogram.Sharding

/-!
Contract: the values that recordings leave in a histogram, one by one.

Owns:
- a run of recordings of which some may be refused, and the list of the values it adds;
- the relation of the counters to such a list, kept by every recording and so by every run;
- the sums of counters before an index, which count the values of the cells before it.

Does not own: the order of the values. `LogLinear.Proofs.Rank.Nearest` has it.
-/

namespace LogLinear.Histogram

/-- What is at hand after some recordings, each of a value with its number of occurrences. A refused
one changes nothing. -/
def keepEach (histogram : Histogram) (records : List (Nat × Nat)) : Histogram :=
  records.foldl
    (fun histogram record => kept histogram (histogram.recordMany record.1 record.2)) histogram

theorem keepEach_cons (histogram : Histogram) (record : Nat × Nat) (later : List (Nat × Nat)) :
    histogram.keepEach (record :: later) =
      (kept histogram (histogram.recordMany record.1 record.2)).keepEach later := rfl

/-- The value that a recording adds to: the one that is let in, if there is room for its
occurrences. -/
def admitted? (histogram : Histogram) (value count : Nat) : Option Nat :=
  (histogram.excess.accept histogram.layout value).filter fun accepted =>
    histogram.HasRoom accepted count

/-- The values that some recordings add, in the order of the recordings. -/
def addedEach (histogram : Histogram) : List (Nat × Nat) → List Nat
  | [] => []
  | record :: later =>
    match histogram.admitted? record.1 record.2 with
    | none => histogram.addedEach later
    | some value =>
      List.replicate record.2 value ++ (histogram.tally value record.2).addedEach later

theorem admitted?_eq_some_iff {histogram : Histogram} {value count accepted : Nat} :
    histogram.admitted? value count = some accepted ↔
      histogram.excess.accept histogram.layout value = some accepted ∧
        histogram.HasRoom accepted count := by
  rw [admitted?, Option.filter_eq_some_iff, decide_eq_true_eq]

theorem kept_recordMany (histogram : Histogram) (value count : Nat) :
    kept histogram (histogram.recordMany value count) =
      match histogram.admitted? value count with
      | none => histogram
      | some accepted => histogram.tally accepted count := by
  unfold recordMany admitted?
  cases histogram.excess.accept histogram.layout value with
  | none => rfl
  | some accepted =>
      by_cases room : histogram.HasRoom accepted count <;> simp [kept, Option.filter_some, room]

theorem layout_keepEach (histogram : Histogram) (records : List (Nat × Nat)) :
    (histogram.keepEach records).layout = histogram.layout := by
  induction records generalizing histogram with
  | nil => rfl
  | cons record rest inductionHypothesis =>
      rw [keepEach_cons, inductionHypothesis, kept_recordMany]
      split <;> rfl

/-- The histogram counts just these values. -/
structure Counts (histogram : Histogram) (values : List Nat) : Prop where
  sound : histogram.Sound
  trackable : ∀ value ∈ values, value ≤ histogram.layout.highest
  count_eq : ∀ index, histogram.count index = (values.map histogram.layout.cell).count index

namespace Counts

variable {histogram : Histogram} {values : List Nat}

theorem fresh (layout : Layout) (excess : Excess) (ratio : Float) :
    (Histogram.fresh layout excess ratio).Counts [] where
  sound := sound_fresh layout excess ratio
  trackable := List.forall_mem_nil _
  count_eq := getD_replicate _

theorem tally {value count : Nat} (counts : histogram.Counts values)
    (trackable : value ≤ histogram.layout.highest) (room : histogram.total + count ≤ Word.max) :
    (histogram.tally value count).Counts (values ++ List.replicate count value) where
  sound := sound_tally counts.sound trackable room
  trackable other member := by
    rcases List.mem_append.mp member with before | added
    · exact counts.trackable other before
    · exact (List.eq_of_mem_replicate added).trans_le trackable
  count_eq index := by
    have sameLayout : (histogram.tally value count).layout = histogram.layout := rfl
    rw [count_tally _ _ _ _ (cell_lt_size counts.sound trackable), counts.count_eq, sameLayout,
      List.map_append, List.count_append, List.map_replicate, List.count_replicate]
    simp only [beq_iff_eq, @eq_comm _ index]

/-- A run of recordings keeps the relation, with the values that it adds. -/
theorem keepEach (counts : histogram.Counts values) (records : List (Nat × Nat)) :
    (histogram.keepEach records).Counts (values ++ histogram.addedEach records) := by
  induction records generalizing histogram values with
  | nil =>
      rw [addedEach, List.append_nil]
      exact counts
  | cons record rest inductionHypothesis =>
      rw [keepEach_cons, kept_recordMany, addedEach]
      cases admitted : histogram.admitted? record.1 record.2 with
      | none => exact inductionHypothesis counts
      | some value =>
          obtain ⟨isAccepted, room⟩ := admitted?_eq_some_iff.mp admitted
          have trackable := Excess.le_highest_of_accept isAccepted
          rw [← List.append_assoc]
          exact inductionHypothesis (counts.tally trackable room.2)

/-! ### Sums of counters -/

theorem countP_lt_succ (cells : List Nat) (bound : Nat) :
    cells.countP (· < bound + 1) = cells.countP (· < bound) + cells.count bound := by
  induction cells with
  | nil => rfl
  | cons cell rest inductionHypothesis =>
      simp only [List.countP_cons, List.count_cons, inductionHypothesis, decide_eq_true_eq,
        beq_iff_eq]
      split_ifs <;> omega

theorem countBefore_eq (counts : histogram.Counts values) (index : Nat) :
    histogram.countBefore index =
      (values.map histogram.layout.cell).countP (· < index) := by
  induction index with
  | zero => simp
  | succ index inductionHypothesis =>
      rw [countBefore_succ, inductionHypothesis, counts.count_eq, countP_lt_succ]

theorem total_eq_length (counts : histogram.Counts values) : histogram.total = values.length := by
  have below : ∀ cell ∈ values.map histogram.layout.cell, cell < histogram.counters.size := by
    intro cell member
    obtain ⟨value, isValue, rfl⟩ := List.mem_map.mp member
    exact cell_lt_size counts.sound (counts.trackable value isValue)
  rw [counts.sound.total_eq, ← histogram.countBefore_of_size_le le_rfl, counts.countBefore_eq,
    List.countP_eq_length.mpr (by simpa using below), List.length_map]

theorem count_cell_ne_zero (counts : histogram.Counts values) {value : Nat}
    (member : value ∈ values) : histogram.count (histogram.layout.cell value) ≠ 0 := by
  rw [counts.count_eq]
  exact (List.count_pos_iff.mpr (List.mem_map_of_mem member)).ne'

end Counts

/-- Two values above the range, one within it and one that is refused for want of room. -/
def sampleRecords : List (Nat × Nat) := [(9, 2), (1, 1), (3, Word.max)]

end LogLinear.Histogram
