import LogLinear.Proofs.Histogram.Highest
import LogLinear.Proofs.Traversal.Chain

/-!
Contract: what a traversal asks of its schedule, in the order of the questions.

Owns:
- the inquiries of a run and of a number of pulls, of which those answered with yes are the stops;
- an induction over pulls for what is said of the inquiries so far;
- the inquiries made of a schedule with the usual answers: cell by cell from the first one to the
  highest one that holds a count, with none left out.

Does not own: the answers.
-/

namespace LogLinear

open Histogram

/-- One question to a schedule: whether a step ends at a position. -/
structure Inquiry where
  position : Position
  ends : Bool

namespace Inquiry

def index (inquiry : Inquiry) : ℕ := inquiry.position.index

/-- After a step the next inquiry is on the same cell again, and otherwise on the next one. -/
def Precedes (earlier later : Inquiry) : Prop :=
  later.index = if earlier.ends then earlier.index else earlier.index + 1

/-- The inquiry is made after its cell has been folded in. -/
structure Folded (histogram : Histogram) (inquiry : Inquiry) : Prop where
  fresh_eq : inquiry.position.fresh = false
  reached_eq : inquiry.position.reached = histogram.countBefore (inquiry.index + 1)

/-- The inquiries begin on cell 0 and go on cell by cell. -/
structure Ordered (inquiries : List Inquiry) : Prop where
  first : ∀ first ∈ inquiries.head?, first.index = 0
  chain : inquiries.IsChain Precedes

theorem Ordered.of_append {inquiries later : List Inquiry} (ordered : Ordered (inquiries ++ later)) :
    Ordered inquiries where
  first first isFirst := ordered.first first (by
    rw [List.head?_append, Option.mem_def.mp isFirst]
    rfl)
  chain := (List.isChain_append.mp ordered.chain).1

theorem Ordered.concat {inquiries : List Inquiry} {last next : Inquiry}
    (ordered : Ordered (inquiries ++ [last])) (precedes : last.Precedes next) :
    Ordered (inquiries ++ [last] ++ [next]) where
  first first isFirst := ordered.first first (by
    rw [List.head?_append_of_ne_nil _ (by simp)] at isFirst
    exact isFirst)
  chain := by
    refine List.isChain_append.mpr ⟨ordered.chain, List.isChain_singleton _, ?_⟩
    simpa using precedes

end Inquiry

namespace Traversal

variable {σ : Type} {traversal before after : Traversal σ} {step : Step}

/-- The question that a turn asks if it goes on to look at its cell. -/
def inquiry (traversal : Traversal σ) : Inquiry :=
  ⟨traversal.position.visited,
    traversal.schedule.endsStep traversal.opened.2 traversal.position.visited⟩

/-- The inquiries of a run, turn by turn. -/
def inquiries (traversal : Traversal σ) : List Inquiry :=
  match _outcome : traversal.turn with
  | .finished _ => []
  | .stepped _ _ => [traversal.inquiry]
  | .moved after =>
    traversal.inquiry :: if traversal.position.index < Word.max then inquiries after else []
termination_by Word.max - traversal.position.index
decreasing_by
  have next := index_of_turn_eq_moved ‹traversal.turn = .moved after›
  omega

/-- The inquiries of a number of pulls. A traversal that is over makes none. -/
def inquiriesIn : ℕ → Traversal σ → List Inquiry
  | 0, _ => []
  | pulls + 1, traversal =>
    (if traversal.completed then [] else traversal.inquiries) ++ inquiriesIn pulls traversal.next.2

theorem index_inquiry (traversal : Traversal σ) :
    traversal.inquiry.index = traversal.position.index :=
  Position.visited_index _

theorem ends_inquiry_of_stepped (stepped : traversal.turn = .stepped step after) :
    traversal.inquiry.ends = true :=
  (turn_eq_stepped_iff.mp stepped).2.1

theorem ends_inquiry_of_moved (moved : traversal.turn = .moved after) :
    traversal.inquiry.ends = false :=
  (turn_eq_moved_iff.mp moved).2.1

theorem inquiries_of_finished (finished : traversal.turn = .finished after) :
    traversal.inquiries = [] := by
  rw [inquiries]
  split <;> simp_all

theorem inquiries_of_stepped (stepped : traversal.turn = .stepped step after) :
    traversal.inquiries = [traversal.inquiry] := by
  rw [inquiries]
  split <;> simp_all

theorem inquiries_of_moved (moved : traversal.turn = .moved after) :
    traversal.inquiries = traversal.inquiry ::
      if traversal.position.index < Word.max then after.inquiries else [] := by
  rw [inquiries]
  split <;> simp_all

theorem inquiries_ne_nil (goesOn : traversal.opened.1 = true) : traversal.inquiries ≠ [] := by
  rw [inquiries]
  split
  · exact absurd ‹_› (turn_ne_finished goesOn)
  · exact List.cons_ne_nil _ _
  · exact List.cons_ne_nil _ _

/-! ### Inquiries and stops -/

theorem map_index_run (traversal : Traversal σ) :
    traversal.run.1.toList.map (fun _ => traversal.run.2.position.index) =
      (traversal.inquiries.filter Inquiry.ends).map Inquiry.index := by
  fun_induction run traversal with
  | case1 before after finished => rw [inquiries_of_finished finished]; rfl
  | case2 before step after stepped =>
      rw [inquiries_of_stepped stepped,
        List.filter_cons_of_pos (ends_inquiry_of_stepped stepped)]
      simp [index_inquiry, index_of_turn_eq_stepped stepped]
  | case3 before after moved inside inductionHypothesis =>
      rw [inductionHypothesis, inquiries_of_moved moved, if_pos inside,
        List.filter_cons_of_neg (by simp [ends_inquiry_of_moved moved])]
  | case4 before after moved outside =>
      rw [inquiries_of_moved moved, if_neg outside,
        List.filter_cons_of_neg (by simp [ends_inquiry_of_moved moved])]
      rfl

/-- The inquiries that are answered with yes are those on the cells of the stops. -/
theorem map_index_stops (pulls : ℕ) (traversal : Traversal σ) :
    (stops pulls traversal).map Stop.index =
      ((inquiriesIn pulls traversal).filter Inquiry.ends).map Inquiry.index := by
  induction pulls generalizing traversal with
  | zero => rfl
  | succ pulls inductionHypothesis =>
      rw [inquiriesIn, List.filter_append, List.map_append, ← inductionHypothesis]
      cases live : traversal.completed with
      | true =>
          rw [stops_of_completed _ live, next, if_pos live, stops_of_completed _ live]
          rfl
      | false =>
          rw [if_neg (by simp), ← map_index_run, ← next_of_live live]
          rcases isNext : traversal.next with ⟨_ | step, after⟩
          · rw [stops, isNext]
            rfl
          · rw [stops_of_some pulls isNext]
            rfl

/-! ### Induction over inquiries -/

section History

variable (history : List Inquiry → Traversal σ → Prop)
  (finished : ∀ {asked : List Inquiry} {before after : Traversal σ},
    history asked before → before.turn = .finished after → history asked after)
  (stepped : ∀ {asked : List Inquiry} {before after : Traversal σ} {step : Step},
    history asked before → before.turn = .stepped step after →
      history (asked ++ [before.inquiry]) after)
  (moved : ∀ {asked : List Inquiry} {before after : Traversal σ},
    history asked before → before.turn = .moved after →
      before.position.index < Word.max ∧ history (asked ++ [before.inquiry]) after)
include finished stepped moved

theorem history_of_run {asked : List Inquiry} (start : history asked traversal) :
    history (asked ++ traversal.inquiries) traversal.run.2 := by
  fun_induction run traversal generalizing asked with
  | case1 before after turned =>
      rw [inquiries_of_finished turned, List.append_nil]
      exact finished start turned
  | case2 before step after turned =>
      rw [inquiries_of_stepped turned]
      exact stepped start turned
  | case3 before after turned inside inductionHypothesis =>
      rw [inquiries_of_moved turned, if_pos inside, List.append_cons]
      exact inductionHypothesis (moved start turned).2
  | case4 before after turned outside => exact absurd (moved start turned).1 outside

/-- What every turn keeps of a traversal with its inquiries so far is kept by pulls, as long as
indices do not run out. -/
theorem history_of_pulls (pulls : ℕ) {asked : List Inquiry} (start : history asked traversal) :
    history (asked ++ inquiriesIn pulls traversal) (pulled pulls traversal) := by
  induction pulls generalizing asked traversal with
  | zero =>
      rw [inquiriesIn, List.append_nil]
      exact start
  | succ pulls inductionHypothesis =>
      rw [inquiriesIn, pulled, ← List.append_assoc]
      apply inductionHypothesis
      cases live : traversal.completed with
      | true =>
          rw [next, if_pos live, if_pos rfl, List.append_nil]
          exact start
      | false =>
          rw [next_of_live live, if_neg (by simp)]
          exact history_of_run history finished stepped moved start

end History

end Traversal

/-! ### Schedules with the usual answers -/

/-- A schedule that leaves it at the usual answers about when a traversal is over. -/
def Schedule.usual {σ : Type} (endsStep : σ → Position → Bool) (afterStep : σ → Position → σ)
    (level : σ → Position → Float) : Schedule σ where
  endsStep := endsStep
  afterStep := afterStep
  level := level

namespace Traversal

variable {σ : Type} {endsStep : σ → Position → Bool} {afterStep : σ → Position → σ}
  {level : σ → Position → Float} {histogram : Histogram} {highest : ℕ} {asked : List Inquiry}
  {traversal after : Traversal σ} {step : Step}

/-- What is so of a traversal with such a schedule after the inquiries made so far. Whatever is asked
next is in order after them, and the cells folded in are those they were made on. -/
structure Attends (schedule : Schedule σ) (histogram : Histogram) (highest : ℕ)
    (asked : List Inquiry) (traversal : Traversal σ) : Prop where
  schedule_eq : traversal.schedule = schedule
  follows : traversal.position.Follows histogram
  ordered : ∀ next : Inquiry, next.index = traversal.position.index →
    Inquiry.Ordered (asked ++ [next])
  folded : ∀ inquiry ∈ asked, inquiry.Folded histogram ∧ inquiry.index ≤ highest
  covered : ∀ index < if traversal.position.fresh then traversal.position.index
    else traversal.position.index + 1, ∃ inquiry ∈ asked, inquiry.index = index
  whole : traversal.completed = true → traversal.position.reached = histogram.total

namespace Attends

theorem opened_eq
    (attends : Attends (.usual endsStep afterStep level) histogram highest asked traversal) :
    traversal.opened = (traversal.position.isOutstanding, traversal.state) := by
  rw [opened, attends.schedule_eq]
  split
  next outstanding => exact congrArg (·, _) outstanding.symm
  next none => exact congrArg (·, _) (Bool.eq_false_of_not_eq_true none).symm

theorem isOutstanding_iff
    (attends : Attends (.usual endsStep afterStep level) histogram highest asked traversal) :
    traversal.opened.1 = true ↔ traversal.position.reached < histogram.total := by
  rw [attends.opened_eq, Position.isOutstanding, Position.total, attends.follows.histogram_eq,
    decide_eq_true_eq]

section Sound

variable (sound : histogram.Sound) (isHighest : IsGreatest histogram.held highest)
  (attends : Attends (.usual endsStep afterStep level) histogram highest asked traversal)
include sound isHighest attends

/-- A turn goes on only while values are outstanding, and so no further than the highest cell that
holds a count. -/
theorem index_le_highest (goesOn : traversal.opened.1 = true) :
    traversal.position.index ≤ highest := by
  have outstanding := attends.isOutstanding_iff.mp goesOn
  rw [← countBefore_highest_succ sound isHighest] at outstanding
  have before := attends.follows.countBefore_le.trans_lt outstanding
  exact Nat.le_of_lt_succ (histogram.countBefore_mono.reflect_lt before)

theorem folded_concat (goesOn : traversal.opened.1 = true) :
    ∀ inquiry ∈ asked ++ [traversal.inquiry],
      inquiry.Folded histogram ∧ inquiry.index ≤ highest := by
  intro inquiry member
  rcases List.mem_append.mp member with earlier | last
  · exact attends.folded inquiry earlier
  · rw [List.mem_singleton.mp last, index_inquiry]
    refine ⟨⟨Position.visited_fresh _, ?_⟩, attends.index_le_highest sound isHighest goesOn⟩
    rw [index_inquiry]
    exact attends.follows.visited_reached

omit sound isHighest in
theorem covered_concat : ∀ index < traversal.position.index + 1,
    ∃ inquiry ∈ asked ++ [traversal.inquiry], inquiry.index = index := by
  intro index below
  rcases Nat.lt_succ_iff_lt_or_eq.mp below with before | same
  · obtain ⟨inquiry, member, isIndex⟩ := attends.covered index (by split <;> omega)
    exact ⟨inquiry, List.mem_append_left _ member, isIndex⟩
  · exact ⟨traversal.inquiry, List.mem_append_right _ List.mem_cons_self,
      (index_inquiry _).trans same.symm⟩

omit sound isHighest in
theorem ordered_concat {next : Inquiry} (precedes : traversal.inquiry.Precedes next) :
    Inquiry.Ordered (asked ++ [traversal.inquiry] ++ [next]) :=
  (attends.ordered traversal.inquiry (index_inquiry _)).concat precedes

omit sound isHighest in
theorem completed_eq_false (goesOn : traversal.opened.1 = true) : traversal.completed = false := by
  rw [← Bool.not_eq_true]
  intro isOver
  exact (attends.isOutstanding_iff.mp goesOn).ne (attends.whole isOver)

theorem of_stepped (stepped : traversal.turn = .stepped step after) :
    Attends (.usual endsStep afterStep level) histogram highest (asked ++ [traversal.inquiry])
      after := by
  have follows := follows_of_turn_eq_stepped attends.follows stepped
  have sameIndex := index_of_turn_eq_stepped stepped
  have ends := ends_inquiry_of_stepped stepped
  obtain ⟨goesOn, -, -, isAfter⟩ := turn_eq_stepped_iff.mp stepped
  have folded : after.position.fresh = false := by
    rw [isAfter]
    exact Position.visited_fresh _
  have live : after.completed = false := by
    rw [isAfter]
    exact attends.completed_eq_false goesOn
  refine ⟨?_, follows, ?_, attends.folded_concat sound isHighest goesOn, ?_, ?_⟩
  · rw [isAfter]
    exact attends.schedule_eq
  · intro next isNext
    apply attends.ordered_concat
    rw [Inquiry.Precedes, ends, if_pos rfl, index_inquiry, isNext, sameIndex]
  · rw [folded, if_neg Bool.false_ne_true, sameIndex]
    exact attends.covered_concat
  · exact fun isOver => absurd (live.symm.trans isOver) Bool.false_ne_true

theorem of_moved (moved : traversal.turn = .moved after) :
    traversal.position.index < Word.max ∧
      Attends (.usual endsStep afterStep level) histogram highest (asked ++ [traversal.inquiry])
        after := by
  have follows := follows_of_turn_eq_moved attends.follows moved
  have nextIndex := index_of_turn_eq_moved moved
  have passes := ends_inquiry_of_moved moved
  obtain ⟨goesOn, -, isAfter⟩ := turn_eq_moved_iff.mp moved
  have fresh : after.position.fresh = true := by
    rw [isAfter]
    rfl
  have live : after.completed = false := by
    rw [isAfter]
    exact attends.completed_eq_false goesOn
  refine ⟨?_, ?_, follows, ?_, attends.folded_concat sound isHighest goesOn, ?_, ?_⟩
  · have counted : highest < histogram.counters.size := lt_size_of_getD_ne_zero isHighest.1
    exact (attends.index_le_highest sound isHighest goesOn).trans_lt
      (histogram.layout.lt_max_of_counted (sound.size_eq ▸ counted))
  · rw [isAfter]
    exact attends.schedule_eq
  · intro next isNext
    apply attends.ordered_concat
    rw [Inquiry.Precedes, passes, if_neg Bool.false_ne_true, index_inquiry, isNext, nextIndex]
  · rw [fresh, if_pos rfl, nextIndex]
    exact attends.covered_concat
  · exact fun isOver => absurd (live.symm.trans isOver) Bool.false_ne_true

omit isHighest in
theorem of_finished (finished : traversal.turn = .finished after) :
    Attends (.usual endsStep afterStep level) histogram highest asked after := by
  obtain ⟨isOver, rfl⟩ := turn_eq_finished_iff.mp finished
  refine ⟨attends.schedule_eq, attends.follows, attends.ordered, attends.folded, attends.covered,
    fun _ => attends.follows.reached_eq_total sound ?_⟩
  intro outstanding
  rw [attends.isOutstanding_iff.mpr outstanding] at isOver
  exact Bool.noConfusion isOver

/-- Once every value has been reached the cells up to the highest one have been asked about. -/
theorem covered_of_reached (whole : traversal.position.reached = histogram.total) :
    ∀ index ≤ highest, ∃ inquiry ∈ asked, inquiry.index = index := by
  intro index below
  apply attends.covered
  apply below.trans_lt
  have isHeld : 0 < histogram.count highest := Nat.pos_of_ne_zero isHighest.1
  rw [attends.follows.reached_eq, ← countBefore_highest_succ sound isHighest,
    countBefore_succ] at whole
  exact histogram.countBefore_mono.reflect_lt (by omega)

end Sound

theorem of_recorded (recorded : histogram.isEmpty = false) (state : σ) :
    Attends (.usual endsStep afterStep level) histogram highest []
      (ofSchedule histogram (.usual endsStep afterStep level) state) where
  schedule_eq := rfl
  follows := Position.follows_origin histogram
  ordered _ isNext := ⟨fun _ isFirst => Option.some_inj.mp isFirst ▸ isNext,
    List.isChain_singleton _⟩
  folded := List.forall_mem_nil _
  covered index below := absurd below (Nat.not_lt_zero index)
  whole isOver := absurd (recorded.symm.trans isOver) Bool.false_ne_true

end Attends

/-- Over a histogram that is not empty, a schedule with the usual answers is first asked about cell
0, and from then on about the same cell again after a step there and about the next cell otherwise;
each time the cell has been folded in, and it is never past the highest one that holds a count. When
a pull gives nothing, every value has been reached and every cell up to that one was asked about. -/
theorem inquiries_of_usual (reachable : histogram.Reachable) (recorded : histogram.isEmpty = false)
    (endsStep : σ → Position → Bool) (afterStep : σ → Position → σ) (level : σ → Position → Float)
    (state : σ) (pulls : ℕ) :
    let traversal := ofSchedule histogram (.usual endsStep afterStep level) state
    let asked := inquiriesIn pulls traversal
    (0 < pulls → asked ≠ []) ∧ Inquiry.Ordered asked ∧
    (asked.filter Inquiry.ends).map Inquiry.index = (stops pulls traversal).map Stop.index ∧
    ∃ highest, IsGreatest histogram.held highest ∧
      (∀ inquiry ∈ asked, inquiry.Folded histogram ∧ inquiry.index ≤ highest) ∧
      ((pulled pulls traversal).next.1 = none →
        (pulled (pulls + 1) traversal).position.reached = histogram.total ∧
        ∀ index ≤ highest, ∃ inquiry ∈ inquiriesIn (pulls + 1) traversal, inquiry.index = index) := by
  intro traversal asked
  have sound := sound_of_reachable reachable
  have positive := total_pos_of_recorded recorded
  obtain ⟨highest, isHighest⟩ := exists_highest sound positive
  have attends : ∀ pulls, Attends (.usual endsStep afterStep level) histogram highest
      (inquiriesIn pulls traversal) (pulled pulls traversal) := by
    intro pulls
    exact history_of_pulls (Attends (.usual endsStep afterStep level) histogram highest)
      (fun before finished => before.of_finished sound finished)
      (fun before stepped => before.of_stepped sound isHighest stepped)
      (fun before moved => before.of_moved sound isHighest moved) pulls
      (Attends.of_recorded recorded state)
  refine ⟨?_, ?_, (map_index_stops pulls traversal).symm, highest, isHighest,
    (attends pulls).folded, ?_⟩
  · intro pulled
    obtain ⟨more, rfl⟩ := Nat.exists_eq_succ_of_ne_zero pulled.ne'
    have goesOn : traversal.opened.1 = true := (attends 0).isOutstanding_iff.mpr positive
    have live : traversal.completed = false := (attends 0).completed_eq_false goesOn
    change inquiriesIn (more + 1) traversal ≠ []
    rw [inquiriesIn, live, if_neg Bool.false_ne_true]
    exact List.append_ne_nil_of_left_ne_nil (inquiries_ne_nil goesOn) _
  · exact ((attends pulls).ordered ⟨(pulled pulls traversal).position, false⟩ rfl).of_append
  · intro none
    have isOver : (pulled (pulls + 1) traversal).completed = true := by
      rw [pulled_add]
      exact completed_of_none (Prod.ext none rfl)
    have whole := (attends (pulls + 1)).whole isOver
    exact ⟨whole, (attends (pulls + 1)).covered_of_reached sound isHighest whole⟩

/-- With a step on each of the two cells that hold a count, the third pull gives nothing, and every
cell up to the second of them has been asked about. -/
theorem sample_inquiries_of_usual :
    let traversal := ofSchedule .sample (.usual Schedule.heldCells.endsStep
      Schedule.heldCells.afterStep fun _ position => position.percent) ⟨none⟩
    Histogram.sample.Reachable ∧ Histogram.sample.isEmpty = false ∧
      ((inquiriesIn 2 traversal).filter Inquiry.ends).map Inquiry.index = [2, 3] ∧
      (pulled 2 traversal).next.1 = none ∧ (pulled 3 traversal).position.reached = 3 ∧
      ∀ index ≤ 3, ∃ inquiry ∈ inquiriesIn 3 traversal, inquiry.index = index := by
  intro traversal
  have recorded : Histogram.sample.isEmpty = false := by decide +kernel
  obtain ⟨first, afterFirst, isFirst, second, afterSecond, isSecond, indices, isOver⟩ :
      ∃ first afterFirst, traversal.next = (some first, afterFirst) ∧
      ∃ second afterSecond, afterFirst.next = (some second, afterSecond) ∧
      (afterFirst.position.index = 2 ∧ afterSecond.position.index = 3) ∧
      afterSecond.next.1 = none := by
    refine ⟨_, _,
      (next_of_moved recorded (turn_eq_moved_iff.mpr ⟨?_, ?_, rfl⟩) ?_).trans
        ((next_of_moved recorded (turn_eq_moved_iff.mpr ⟨?_, ?_, rfl⟩) ?_).trans
          (next_of_stepped recorded (turn_eq_stepped_iff.mpr ⟨?_, ?_, rfl, rfl⟩))),
      _, _,
      (next_of_moved recorded (turn_eq_moved_iff.mpr ⟨?_, ?_, rfl⟩) ?_).trans
        (next_of_stepped recorded (turn_eq_stepped_iff.mpr ⟨?_, ?_, rfl, rfl⟩)), ?_,
      congrArg Prod.fst ((next_of_live recorded).trans (run_of_finished
        (turn_of_opened_eq_false ?_)))⟩
    all_goals decide +kernel
  have none : (pulled 2 traversal).next.1 = .none := by
    rw [pulled, pulled, pulled, isFirst, isSecond]
    exact isOver
  have asked := inquiries_of_usual Histogram.sample_reachable recorded Schedule.heldCells.endsStep
    Schedule.heldCells.afterStep (fun _ position => position.percent) ⟨.none⟩ 2
  obtain ⟨-, -, isStops, highest, isHighest, -, ending⟩ := asked
  obtain ⟨whole, covered⟩ := ending none
  have inside : 3 ≤ highest := isHighest.2 (show Histogram.sample.count 3 ≠ 0 by decide +kernel)
  refine ⟨Histogram.sample_reachable, recorded, isStops.trans ?_, none,
    whole.trans (by decide +kernel), fun index below => covered index (below.trans inside)⟩
  change (stops 2 traversal).map Stop.index = [2, 3]
  rw [stops_of_some 1 isFirst, stops_of_some 0 isSecond, indices.1, indices.2]
  rfl

end Traversal

end LogLinear
