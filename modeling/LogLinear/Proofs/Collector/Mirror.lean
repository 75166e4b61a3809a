import LogLinear.Proofs.Histogram.Reachable

/-!
Contract: collectors give the answers of histograms, and their snapshots are these histograms.

Owns:
- the operations that both have, and the answers to several of them in turn;
- the relation of a collector to the histogram that it mirrors, which every operation keeps;
- the snapshot of a collector that mirrors a histogram.

Does not own: operations that overlap. Here one ends before the next begins.
-/

namespace LogLinear

/-- An operation on something that counts values. -/
inductive Operation where
  | record (value : Nat)
  | recordMany (value count : Nat)
  | clear

namespace Operation

def onHistogram (histogram : Histogram) : Operation → Except Fault Histogram
  | record value => histogram.record value
  | recordMany value count => histogram.recordMany value count
  | clear => .ok histogram.cleared

def onCollector (collector : Collector) : Operation → Except Fault Collector
  | record value => collector.record value
  | recordMany value count => collector.recordMany value count
  | clear => .ok collector.cleared

/-- What the caller of an operation is told. -/
def answer {α : Type} : Except Fault α → Except Fault Unit
  | .ok _ => .ok ()
  | .error fault => .error fault

/-- The answers to operations that are performed one after the other, and what is at hand at the
end. -/
def performEach {α : Type} (perform : α → Operation → Except Fault α) (start : α) :
    List Operation → List (Except Fault Unit) × α
  | [] => ([], start)
  | operation :: later =>
    let result := perform start operation
    let (answers, last) := performEach perform (kept start result) later
    (answer result :: answers, last)

end Operation

/-! ### Snapshots -/

/-- The histograms have the same counters, and agree in what is kept or said about them. -/
structure Histogram.Matches (left right : Histogram) : Prop where
  layout_eq : left.layout = right.layout
  counters_eq : left.counters = right.counters
  total_eq : left.total = right.total
  minimum_eq : left.minimum = right.minimum
  maximum_eq : left.maximum = right.maximum
  excess_eq : left.excess = right.excess
  ratio_eq : left.ratio = right.ratio

namespace Collector

variable {collector : Collector} {histogram : Histogram}

/-- The collector has what the histogram has, but for the extent, and so it is sound as that is. -/
structure Mirrors (collector : Collector) (histogram : Histogram) : Prop where
  layout_eq : collector.layout = histogram.layout
  excess_eq : collector.excess = histogram.excess
  ratio_eq : collector.ratio = histogram.ratio
  counters_eq : collector.counters = histogram.counters
  total_eq : collector.total = histogram.total
  sound : histogram.Sound

/-- Both are refused for one cause, or both go on and mirror each other. -/
inductive Parallel : Except Fault Collector → Except Fault Histogram → Prop
  | refused (fault : Fault) : Parallel (.error fault) (.error fault)
  | accepted {collector : Collector} {histogram : Histogram} (mirrors : collector.Mirrors histogram) :
      Parallel (.ok collector) (.ok histogram)

namespace Parallel

variable {collected : Except Fault Collector} {recorded : Except Fault Histogram}

theorem answer_eq (parallel : Parallel collected recorded) :
    Operation.answer collected = Operation.answer recorded := by
  cases parallel <;> rfl

theorem mirrors_kept (parallel : Parallel collected recorded) (before : collector.Mirrors histogram) :
    (kept collector collected).Mirrors (kept histogram recorded) := by
  cases parallel with
  | refused fault => exact before
  | accepted mirrors => exact mirrors

end Parallel

namespace Mirrors

variable (mirrors : collector.Mirrors histogram)
include mirrors

theorem collectorSound : collector.Sound where
  size_eq := by
    rw [mirrors.counters_eq, mirrors.layout_eq]
    exact mirrors.sound.size_eq
  total_eq := by
    rw [mirrors.counters_eq, mirrors.total_eq]
    exact mirrors.sound.total_eq
  total_le := mirrors.total_eq ▸ mirrors.sound.total_le

/-- The collector adds to the counter without a carry, which is never lost. -/
theorem tally {value count : Nat} (trackable : value ≤ histogram.layout.highest)
    (room : histogram.total + count ≤ Word.max) :
    (collector.tally value count).Mirrors (histogram.tally value count) where
  layout_eq := mirrors.layout_eq
  excess_eq := mirrors.excess_eq
  ratio_eq := mirrors.ratio_eq
  counters_eq := by
    rw [← mirrors.total_eq] at room
    change collector.counters.modify (collector.layout.cell value) (Word.wrappingSum · count) =
      histogram.counters.modify (histogram.layout.cell value) (· + count)
    rw [modify_wrappingSum mirrors.collectorSound room, mirrors.counters_eq, mirrors.layout_eq]
  total_eq := congrArg (· + count) mirrors.total_eq
  sound := Histogram.sound_tally mirrors.sound trackable room

/-- The histogram checks the counter besides the total, which never fails alone. -/
theorem recordMany (value count : Nat) :
    Parallel (collector.recordMany value count) (histogram.recordMany value count) := by
  unfold Collector.recordMany Histogram.recordMany
  rw [mirrors.excess_eq, mirrors.layout_eq, mirrors.total_eq]
  cases isAccepted : histogram.excess.accept histogram.layout value with
  | none => exact .refused .outOfRange
  | some accepted =>
      simp only [Histogram.hasRoom_iff mirrors.sound]
      split
      next room => exact .accepted (mirrors.tally (Excess.le_highest_of_accept isAccepted) room)
      next => exact .refused .overflow

theorem cleared : collector.cleared.Mirrors histogram.cleared where
  layout_eq := mirrors.layout_eq
  excess_eq := mirrors.excess_eq
  ratio_eq := mirrors.ratio_eq
  counters_eq := by rw [Collector.cleared, Histogram.cleared, mirrors.counters_eq]
  total_eq := rfl
  sound := Histogram.sound_cleared mirrors.sound

theorem perform (operation : Operation) :
    Parallel (operation.onCollector collector) (operation.onHistogram histogram) := by
  cases operation with
  | record value => exact mirrors.recordMany value 1
  | recordMany value count => exact mirrors.recordMany value count
  | clear => exact .accepted mirrors.cleared

theorem performEach (operations : List Operation) :
    (Operation.performEach Operation.onCollector collector operations).1 =
        (Operation.performEach Operation.onHistogram histogram operations).1 ∧
      (Operation.performEach Operation.onCollector collector operations).2.Mirrors
        (Operation.performEach Operation.onHistogram histogram operations).2 := by
  induction operations generalizing collector histogram with
  | nil => exact ⟨rfl, mirrors⟩
  | cons operation later inductionHypothesis =>
      have parallel := mirrors.perform operation
      obtain ⟨answers, last⟩ := inductionHypothesis (parallel.mirrors_kept mirrors)
      exact ⟨congrArg₂ List.cons parallel.answer_eq answers, last⟩

theorem snapshot_matches : collector.snapshot.Matches histogram := by
  have snapshotSound := sound_snapshot mirrors.collectorSound
  have extremes :=
    Histogram.extremes_eq snapshotSound mirrors.sound mirrors.layout_eq mirrors.counters_eq
  refine ⟨mirrors.layout_eq, mirrors.counters_eq, ?_, extremes.1, extremes.2, mirrors.excess_eq,
    mirrors.ratio_eq⟩
  calc collector.snapshot.total = Histogram.sumOf collector.counters := snapshotSound.total_eq
    _ = collector.total := mirrors.collectorSound.total_eq.symm
    _ = histogram.total := mirrors.total_eq

end Mirrors

/-- No recording that is not refused takes a counter out of the word range. -/
def NeverWraps (collector : Collector) : Prop :=
  ∀ value count after, collector.recordMany value count = .ok after →
    ∃ accepted, collector.excess.accept collector.layout value = some accepted ∧
      collector.counters.getD (collector.layout.cell accepted) 0 + count ≤ Word.max

theorem neverWraps_of_sound (sound : collector.Sound) : collector.NeverWraps := by
  intro value count after recorded
  unfold recordMany at recorded
  split at recorded
  · cases recorded
  · rename_i accepted isAccepted
    split at recorded
    · rename_i room
      have below := Histogram.getD_le_sumOf collector.counters (collector.layout.cell accepted)
      rw [← sound.total_eq] at below
      exact ⟨accepted, isAccepted, (Nat.add_le_add_right below count).trans room⟩
    · cases recorded

theorem mirrors_equip (setup : Setup) (layout : Layout) :
    { empty layout with excess := setup.excess, ratio := setup.ratio : Collector }.Mirrors
      (setup.equip (Histogram.empty layout)) where
  layout_eq := rfl
  excess_eq := rfl
  ratio_eq := rfl
  counters_eq := rfl
  total_eq := rfl
  sound := Histogram.sound_equip setup (Histogram.sound_empty layout)

end Collector

/-- A setup makes a collector and a histogram, or is refused by both for one cause. From then on
both give the same answers to operations in any order and with any arguments, refused ones among
them, and a snapshot of the collector is the histogram at every moment. The total that is checked
for room is enough to keep the counters, and the sum of the snapshot, in the word range. -/
theorem Setup.collector_mirrors_histogram (setup : Setup) :
    (∃ fault, setup.checkedLayout = .error fault ∧ setup.collector = .error fault ∧
      setup.histogram = .error fault) ∨
    ∃ collector histogram, setup.collector = .ok collector ∧ setup.histogram = .ok histogram ∧
      ∀ operations : List Operation,
        (Operation.performEach Operation.onCollector collector operations).1 =
          (Operation.performEach Operation.onHistogram histogram operations).1 ∧
        (Operation.performEach Operation.onCollector collector operations).2.snapshot.Matches
          (Operation.performEach Operation.onHistogram histogram operations).2 ∧
        (Operation.performEach Operation.onCollector collector operations).2.NeverWraps ∧
        Histogram.sumOf (Operation.performEach Operation.onCollector collector operations).2.counters
          ≤ Word.max := by
  cases checked : setup.checkedLayout with
  | error fault =>
      refine .inl ⟨fault, rfl, ?_, ?_⟩
      · rw [Setup.collector, checked]
        rfl
      · rw [Setup.histogram, checked]
        rfl
  | ok layout =>
      have collected : setup.collector =
          .ok { Collector.empty layout with excess := setup.excess, ratio := setup.ratio } := by
        rw [Setup.collector, checked]
        rfl
      have recorded : setup.histogram = .ok (setup.equip (Histogram.empty layout)) := by
        rw [Setup.histogram, checked]
        rfl
      refine .inr ⟨_, _, collected, recorded, ?_⟩
      intro operations
      obtain ⟨answers, last⟩ := (Collector.mirrors_equip setup layout).performEach operations
      have sound := last.collectorSound
      refine ⟨answers, last.snapshot_matches, Collector.neverWraps_of_sound sound, ?_⟩
      rw [← sound.total_eq]
      exact sound.total_le

/-- Units of four up to 127, with the rule and ratio that hold unless others are chosen. -/
def foursSetup : Setup := { requirement := Layout.fours.requirement }

/-- A recording, one of a value out of range, and one that finds no room. -/
def sampleOperations : List Operation := [.recordMany 13 2, .record 128, .recordMany 3 Word.max]

/-- The snapshot only knows that the cell of 13 starts at 8, so the extents are not the same. -/
theorem fours_collector_mirrors :
    ∃ collector histogram, foursSetup.collector = .ok collector ∧
      foursSetup.histogram = .ok histogram ∧
      let collected := Operation.performEach Operation.onCollector collector sampleOperations
      let recorded := Operation.performEach Operation.onHistogram histogram sampleOperations
      collected.1 = [.ok (), .error .outOfRange, .error .overflow] ∧
        recorded.1 = [.ok (), .error .outOfRange, .error .overflow] ∧
        collected.2.snapshot.Matches recorded.2 ∧ collected.2.snapshot.extent = ⟨8, 11⟩ ∧
        recorded.2.extent = ⟨12, 15⟩ := by
  rcases foursSetup.collector_mirrors_histogram with
    ⟨fault, refused, -⟩ | ⟨collector, histogram, isCollector, isHistogram, same⟩
  · have accepted : foursSetup.checkedLayout = .ok .fours := by decide +kernel
    rw [accepted] at refused
    cases refused
  · obtain ⟨answers, matching, -⟩ := same sampleOperations
    have collected : foursSetup.collector.map (fun collector =>
        (Operation.performEach Operation.onCollector collector sampleOperations).2.snapshot.extent) =
          .ok ⟨8, 11⟩ := by
      decide +kernel
    have recorded : foursSetup.histogram.map (fun histogram =>
        let (answers, last) := Operation.performEach Operation.onHistogram histogram sampleOperations
        (answers, last.extent)) =
          .ok ([.ok (), .error .outOfRange, .error .overflow], ⟨12, 15⟩) := by
      decide +kernel
    rw [isCollector] at collected
    rw [isHistogram] at recorded
    obtain ⟨isAnswers, extent⟩ := Prod.ext_iff.mp (Except.ok.inj recorded)
    exact ⟨collector, histogram, isCollector, isHistogram, answers.trans isAnswers, isAnswers,
      matching, Except.ok.inj collected, extent⟩

end LogLinear
