import LogLinear.Proofs.Histogram.Alike
import LogLinear.Proofs.Histogram.Conservation
import LogLinear.Proofs.Histogram.InPlace

/-!
Contract: histograms that are taken apart into a setup and counters, and made from these again.

Owns:
- the setup that a histogram came from, which is valid however the histogram came about;
- the histogram made from its setup and counters, which is alike but has its extent found anew;
- recordings, merges and clearings from then on, which tell the two apart in no answer and at no
  moment;
- counters that are taken in one after the other, with a total that is checked at each of them.

Does not own: what happens to the counters in between.
-/

namespace LogLinear

/-! ### The setup of a histogram -/

theorem exists_of_bind_eq_ok {α β : Type} {first : Except Fault α} {next : α → Except Fault β}
    {result : β} (made : first >>= next = .ok result) :
    ∃ between, first = .ok between ∧ next between = .ok result := by
  cases first with
  | error fault => cases made
  | ok between => exact ⟨between, rfl, made⟩

theorem Setup.ratioValid_of_checkedLayout {setup : Setup} {layout : Layout}
    (checked : setup.checkedLayout = .ok layout) : RatioValid setup.ratio := by
  unfold Setup.checkedLayout at checked
  split at checked
  next valid => exact valid
  next => cases checked

theorem Setup.ratioValid_one : RatioValid 1.0 := by decide +kernel

theorem Collector.ratioValid_of_reachable {collector : Collector}
    (reachable : collector.Reachable) : Setup.RatioValid collector.ratio := by
  induction reachable with
  | empty layout => exact Setup.ratioValid_one
  | made made =>
      obtain ⟨layout, checked, equipped⟩ := exists_of_bind_eq_ok made
      cases equipped
      exact Setup.ratioValid_of_checkedLayout checked
  | recorded _ value count inductionHypothesis =>
      unfold Collector.recordMany
      split
      · exact inductionHypothesis
      · split <;> exact inductionHypothesis
  | cleared _ inductionHypothesis => exact inductionHypothesis

namespace Histogram

/-- What a histogram was made with. -/
def setup (histogram : Histogram) : Setup :=
  ⟨histogram.layout.requirement, histogram.excess, histogram.ratio⟩

theorem ratio_kept {histogram : Histogram} {result : Except Fault Histogram}
    (preserved : ∀ after, result = .ok after → after.ratio = histogram.ratio) :
    (kept histogram result).ratio = histogram.ratio := by
  cases result with
  | ok after => exact preserved after rfl
  | error fault => rfl

theorem ratio_of_recordMany {histogram after : Histogram} {value count : Nat}
    (recorded : histogram.recordMany value count = .ok after) : after.ratio = histogram.ratio := by
  obtain ⟨accepted, -, -, rfl⟩ := recordMany_eq_ok_iff.mp recorded
  rfl

theorem ratio_of_recordQuantity {histogram after : Histogram} {quantity : Float}
    (recorded : histogram.recordQuantity quantity = .ok after) :
    after.ratio = histogram.ratio := by
  unfold recordQuantity at recorded
  split at recorded
  · cases recorded
  · exact ratio_of_recordMany recorded

/-- No operation changes the ratio, and no setup lets in an invalid one. -/
theorem ratioValid_of_reachable {histogram : Histogram} (reachable : histogram.Reachable) :
    Setup.RatioValid histogram.ratio := by
  induction reachable with
  | empty layout => exact Setup.ratioValid_one
  | made made =>
      obtain ⟨layout, checked, equipped⟩ := exists_of_bind_eq_ok made
      cases equipped
      exact Setup.ratioValid_of_checkedLayout checked
  | ofCounters made =>
      unfold Histogram.ofCounters at made
      split at made
      · split at made <;> cases made
        exact Setup.ratioValid_one
      · cases made
  | restored made =>
      obtain ⟨layout, checked, filled⟩ := exists_of_bind_eq_ok made
      obtain ⟨plain, -, equipped⟩ := exists_of_bind_eq_ok filled
      cases equipped
      exact Setup.ratioValid_of_checkedLayout checked
  | snapshot source => exact Collector.ratioValid_of_reachable source
  | recorded _ value inductionHypothesis =>
      rw [record, ratio_kept fun _ => ratio_of_recordMany]
      exact inductionHypothesis
  | recordedMany _ value count inductionHypothesis =>
      rw [ratio_kept fun _ => ratio_of_recordMany]
      exact inductionHypothesis
  | recordedQuantity _ quantity inductionHypothesis =>
      rw [ratio_kept fun _ => ratio_of_recordQuantity]
      exact inductionHypothesis
  | merged before otherBefore inductionHypothesis =>
      have sound := sound_of_reachable before
      have otherSound := sound_of_reachable otherBefore
      rw [ratio_kept fun _ merged => (absorbs_of_merge sound otherSound merged).2.ratio_eq]
      exact inductionHypothesis
  | cleared _ inductionHypothesis => exact inductionHypothesis

theorem checkedLayout_setup {histogram : Histogram} (valid : Setup.RatioValid histogram.ratio) :
    histogram.setup.checkedLayout = .ok histogram.layout := by
  rw [Setup.checkedLayout, if_pos (show Setup.RatioValid histogram.setup.ratio from valid)]
  exact histogram.layout.ofRequirement_requirement

/-! ### Made again -/

/-- The histogram with the extent that its counters have by themselves. -/
def refound (histogram : Histogram) : Histogram :=
  { histogram with extent := extentOf histogram.layout histogram.tallies }

section Sound

variable {histogram : Histogram} (sound : histogram.Sound)
include sound

theorem sound_refound : histogram.refound.Sound :=
  ⟨sound.size_eq, sound.total_eq, sound.total_le, spans_extentOf sound.size_eq⟩

theorem alike_refound : histogram.Alike histogram.refound :=
  ⟨rfl, rfl, rfl, rfl, rfl, sound, sound_refound sound⟩

theorem ofCounters_counters :
    ofCounters histogram.layout histogram.counters =
      .ok { histogram.refound with excess := .reject, ratio := 1.0 } := by
  rw [ofCounters, if_pos sound.size_eq, if_pos (sound.total_eq ▸ sound.total_le), ← sound.total_eq]
  rfl

theorem histogramWith_setup (valid : Setup.RatioValid histogram.ratio) :
    histogram.setup.histogramWith histogram.counters = .ok histogram.refound := by
  have made : histogram.setup.histogramWith histogram.counters =
      ofCounters histogram.layout histogram.counters >>= fun plain =>
        .ok (histogram.setup.equip plain) := by
    rw [Setup.histogramWith, checkedLayout_setup valid]
    rfl
  rw [made, ofCounters_counters sound]
  rfl

end Sound

/-! ### Operations from then on -/

/-- An operation that changes what a histogram counts. -/
inductive Edit where
  | perform (operation : Operation)
  | merge (other : Histogram) (reachable : other.Reachable)

def Edit.on (histogram : Histogram) : Edit → Except Fault Histogram
  | perform operation => operation.onHistogram histogram
  | merge other _ => histogram.merge other

/-- The answer to each of some operations that are performed one after the other, with what is at
hand after it. -/
def outcomes (histogram : Histogram) : List Edit → List (Except Fault Unit × Histogram)
  | [] => []
  | edit :: later =>
    let result := edit.on histogram
    let after := kept histogram result
    (Operation.answer result, after) :: after.outcomes later

/-- The answer is the same, and so is all that is told of the histogram after it. -/
def SameOutcome (left right : Except Fault Unit × Histogram) : Prop :=
  left.1 = right.1 ∧ left.2.Matches right.2

namespace Alike

variable {left right : Histogram} (alike : left.Alike right)
include alike

theorem edit (edit : Edit) : Concur Alike (edit.on left) (edit.on right) := by
  cases edit with
  | perform operation =>
      cases operation with
      | record value => exact alike.recordMany value 1
      | recordMany value count => exact alike.recordMany value count
      | clear => exact .accepted alike.cleared
  | merge other reachable => exact alike.merge (sound_of_reachable reachable)

theorem outcomes (edits : List Edit) :
    List.Forall₂ SameOutcome (left.outcomes edits) (right.outcomes edits) := by
  induction edits generalizing left right with
  | nil => exact .nil
  | cons edit later inductionHypothesis =>
      have concur := alike.edit edit
      have after := concur.related_kept alike
      exact .cons ⟨concur.answer_eq, after.toMatches⟩ (inductionHypothesis after)

end Alike

/-! ### Counters taken in one after the other -/

namespace Change

/-- Adds a tally to the total, which is checked, and covers the least value of its cell. -/
def takeIn (tally : Tally) : Change Unit := do
  let total ← sum (← get).total tally.count
  writeTotal total
  cover ((← get).start tally.index)

/-- Takes in the counters that are not zero, from the lowest one on. The counters themselves are
written last, as they are. -/
def takeCounters (counters : Array Nat) : Change Unit := do
  if counters.size = (← get).layout.cellCount then
    (Tally.gather counters counters.size []).forM takeIn
    modify fun histogram => { histogram with counters := counters }
  else throw .layoutMismatch

theorem takeIn_result (histogram : Histogram) (tally : Tally) :
    result ((takeIn tally).run histogram) =
      if histogram.total + tally.count ≤ Word.max then
        .ok { histogram with
          total := histogram.total + tally.count
          extent := histogram.extent.cover histogram.layout.unitMask
            (histogram.layout.start tally.index) }
      else .error .overflow := by
  simp only [takeIn, EStateM.run_bind, EStateM.run_get]
  split_ifs with fits
  · rw [sum_run_of_le fits]
    exact congrArg result (cover_run (histogram.start tally.index))
  · rw [sum_run_of_lt (Nat.lt_of_not_le fits)]
    rfl

/-- The total only grows, so one of the sums is refused if and only if the last one would be. -/
theorem takeEach_result {histogram : Histogram} (word : histogram.total ≤ Word.max)
    (tallies : List Tally) :
    result ((tallies.forM takeIn).run histogram) =
      if histogram.total + (tallies.map Tally.count).sum ≤ Word.max then
        .ok { histogram with
          total := histogram.total + (tallies.map Tally.count).sum
          extent := tallies.foldl
            (fun extent tally => extent.cover histogram.layout.unitMask
              (histogram.layout.start tally.index)) histogram.extent }
      else .error .overflow := by
  induction tallies generalizing histogram with
  | nil => exact (if_pos word).symm
  | cons tally later inductionHypothesis =>
      have step : (tally :: later).forM takeIn = takeIn tally >>= fun _ => later.forM takeIn := rfl
      rw [step, result_bind, takeIn_result, List.map_cons, List.sum_cons, ← Nat.add_assoc]
      by_cases fits : histogram.total + tally.count ≤ Word.max
      · rw [if_pos fits]
        exact inductionHypothesis fits
      · have full : ¬ histogram.total + tally.count + (later.map Tally.count).sum ≤ Word.max :=
          fun room => fits ((Nat.le_add_right _ _).trans room)
        rw [if_neg fits, if_neg full]
        rfl

theorem takeCounters_result (layout : Layout) (counters : Array Nat) :
    result ((takeCounters counters).run (empty layout)) = ofCounters layout counters := by
  have sums : ((Tally.gather counters counters.size []).map Tally.count).sum = sumOf counters := by
    rw [sum_gather counters Tally.count fun _ => rfl, sumOf_eq_sum_range]
  simp only [takeCounters, EStateM.run_bind, EStateM.run_get, ofCounters]
  by_cases size : counters.size = layout.cellCount
  · rw [if_pos size, if_pos (show counters.size = (empty layout).layout.cellCount from size),
      result_bind, takeEach_result (Nat.zero_le _), sums]
    rw [show (empty layout).total = 0 from rfl, Nat.zero_add]
    split <;> rfl
  · rw [if_neg size, if_neg (show ¬ counters.size = (empty layout).layout.cellCount from size)]
    rfl

end Change

section Refusals

variable {layout : Layout} {counters : Array Nat}

theorem ofCounters_eq_layoutMismatch_iff :
    ofCounters layout counters = .error .layoutMismatch ↔ counters.size ≠ layout.cellCount := by
  unfold ofCounters
  split_ifs with size room <;> simp [size]

theorem ofCounters_eq_overflow_iff (size : counters.size = layout.cellCount) :
    ofCounters layout counters = .error .overflow ↔ Word.max < sumOf counters := by
  unfold ofCounters
  rw [if_pos size]
  split_ifs with room
  · simp [room]
  · simp [Nat.lt_of_not_le room]

theorem exists_ofCounters_iff (size : counters.size = layout.cellCount) :
    (∃ made, ofCounters layout counters = .ok made ∧ made.counters = counters) ↔
      sumOf counters ≤ Word.max := by
  unfold ofCounters
  rw [if_pos size]
  split_ifs with room <;> simp [room]

end Refusals

/-- Taking a histogram apart and making it again loses nothing. From its counters alone, and from
its setup and its counters, comes a histogram with the same counters, total and extremes, whatever
operations the first one has seen. Given the setup, nothing tells the two apart from then on: the
answers to recordings, merges and clearings are the same, and so are the counters, totals and
extremes after each of them.

Any counters of the right number are taken, if only their sum is a word. A total that is checked at
each counter that is not zero comes to the same. -/
theorem restored_of_reachable {histogram : Histogram} (reachable : histogram.Reachable) :
    (∃ plain, ofCounters histogram.layout histogram.counters = .ok plain ∧
      plain.Matches { histogram with excess := .reject, ratio := 1.0 }) ∧
    (∃ copy, histogram.setup.histogramWith histogram.counters = .ok copy ∧
      copy.Matches histogram ∧
      ∀ edits, List.Forall₂ SameOutcome (histogram.outcomes edits) (copy.outcomes edits)) ∧
    ∀ layout counters,
      Change.result ((Change.takeCounters counters).run (empty layout)) =
        ofCounters layout counters ∧
      (ofCounters layout counters = .error .layoutMismatch ↔
        counters.size ≠ layout.cellCount) ∧
      (counters.size = layout.cellCount →
        (ofCounters layout counters = .error .overflow ↔ Word.max < sumOf counters) ∧
        ((∃ made, ofCounters layout counters = .ok made ∧ made.counters = counters) ↔
          sumOf counters ≤ Word.max)) := by
  have sound := sound_of_reachable reachable
  have alike := alike_refound sound
  have matching := alike.toMatches
  refine ⟨⟨_, ofCounters_counters sound, ?_⟩, ⟨_, ?_, ?_, alike.outcomes⟩, ?_⟩
  · exact ⟨rfl, rfl, rfl, matching.minimum_eq.symm, matching.maximum_eq.symm, rfl, rfl⟩
  · exact histogramWith_setup sound (ratioValid_of_reachable reachable)
  · exact ⟨rfl, rfl, rfl, matching.minimum_eq.symm, matching.maximum_eq.symm, rfl, rfl⟩
  · intro layout counters
    exact ⟨Change.takeCounters_result layout counters, ofCounters_eq_layoutMismatch_iff,
      fun size => ⟨ofCounters_eq_overflow_iff size, exists_ofCounters_iff size⟩⟩

/-- What is done to a histogram and its copy: a recording that finds no room, one that does, a merge
from another layout and a clearing. -/
def sampleEdits : List Edit :=
  [.perform (.recordMany 1 Word.max), .perform (.record 69), .merge sample sample_reachable,
    .perform .clear]

/-- The greatest recorded value is 71, and the copy only knows that its cell starts at 68. -/
theorem paired_restored :
    (paired 71 3).Reachable ∧ (paired 71 3).extent = ⟨5, 71⟩ ∧
    ∃ copy, (paired 71 3).setup.histogramWith (paired 71 3).counters = .ok copy ∧
      copy.extent = ⟨5, 68⟩ ∧ copy.Matches (paired 71 3) ∧
      (copy.outcomes sampleEdits).map Prod.fst = [.error .overflow, .ok (), .ok (), .ok ()] ∧
      List.Forall₂ SameOutcome ((paired 71 3).outcomes sampleEdits)
        (copy.outcomes sampleEdits) := by
  obtain ⟨-, ⟨copy, made, matching, same⟩, -⟩ := restored_of_reachable (paired_reachable 71 3)
  have shown : ((paired 71 3).setup.histogramWith (paired 71 3).counters).map
      (fun copy => (copy.extent, (copy.outcomes sampleEdits).map Prod.fst)) =
        .ok (⟨5, 68⟩, [.error .overflow, .ok (), .ok (), .ok ()]) := by
    decide +kernel
  rw [made] at shown
  obtain ⟨extent, answers⟩ := Prod.ext_iff.mp (Except.ok.inj shown)
  exact ⟨paired_reachable 71 3, by decide +kernel, copy, made, extent, matching, answers,
    same sampleEdits⟩

end Histogram

end LogLinear
