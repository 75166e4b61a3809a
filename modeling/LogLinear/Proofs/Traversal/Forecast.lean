import LogLinear.Proofs.Traversal.Cells
import LogLinear.Proofs.Traversal.Scale

/-!
Contract: what can be said of the next pull of a traversal before it is made.

Owns:
- traversals that a pull exhausts, and the forecast that tells them from the state alone;
- the traversals with at most one step for each cell between two pulls, whose next pull gives a step
  if and only if there is a wanted cell after that of the last one.

A forecast only has to be right when it says that nothing comes. Whether a step comes after all is
known beforehand of the traversal of every cell.

Does not own: the steps themselves. `LogLinear.Proofs.Traversal.Cells` has them.
-/

namespace LogLinear

/-- The cell after that of the last step, or the first one if there was none. -/
def LastStop.following (stop : LastStop) : ℕ := stop.index.elim 0 (· + 1)

namespace Traversal

/-! ### Forecasts -/

section Forecasts

variable {σ : Type} {traversal after : Traversal σ}

/-- The next pull gives nothing and leaves the traversal as it then is for ever: over, and with
nothing in any further pull. -/
def Exhausts (traversal : Traversal σ) : Prop :=
  ∃ last, traversal.next = (none, last) ∧ last.completed = true ∧
    ∀ pulls, (pulled pulls last).next = (none, last)

/-- When the forecast is that nothing comes, nothing comes. -/
def Foretells (traversal : Traversal σ) : Prop :=
  traversal.mayContinue = false → traversal.Exhausts

theorem next_of_completed (isOver : traversal.completed = true) :
    traversal.next = (none, traversal) := by
  rw [next, if_pos isOver]

theorem exhausts_of_none (isNext : traversal.next = (none, after)) : traversal.Exhausts := by
  have isOver := completed_of_none isNext
  refine ⟨after, isNext, isOver, ?_⟩
  intro pulls
  rw [pulled_of_completed pulls isOver, next_of_completed isOver]

/-- The forecast asks whether a closing step is due, and the pull asks to begin it. A schedule has to
give one answer to both. -/
theorem foretells_of_agree
    (agree : (traversal.schedule.beginClosing traversal.state traversal.position).1 =
      traversal.schedule.hasClosing traversal.state traversal.position) :
    traversal.Foretells := by
  intro spent
  cases live : traversal.completed with
  | true => exact exhausts_of_none (next_of_completed live)
  | false =>
      rw [mayContinue, live, Bool.not_false, Bool.true_and, Bool.or_eq_false_iff, ← agree] at spent
      obtain ⟨noCells, noClosing⟩ := spent
      have isOpened : traversal.opened.1 = false := by
        rw [opened, noCells, if_neg Bool.false_ne_true, noClosing]
      have isNext := run_of_finished (turn_of_opened_eq_false isOpened)
      rw [← next_of_live live] at isNext
      exact exhausts_of_none isNext

theorem schedule_next (traversal : Traversal σ) :
    traversal.next.2.schedule = traversal.schedule := by
  unfold next
  split
  next => rfl
  next =>
    fun_induction run traversal with
    | case1 before after finished =>
        obtain ⟨-, rfl⟩ := turn_eq_finished_iff.mp finished
        rfl
    | case2 before step after stepped =>
        obtain ⟨-, -, -, rfl⟩ := turn_eq_stepped_iff.mp stepped
        rfl
    | case3 before after moved inside inductionHypothesis =>
        rw [inductionHypothesis ((completed_of_turn_eq_moved moved).trans_ne ‹_›)]
        obtain ⟨-, -, rfl⟩ := turn_eq_moved_iff.mp moved
        rfl
    | case4 before after moved outside =>
        obtain ⟨-, -, rfl⟩ := turn_eq_moved_iff.mp moved
        rfl

theorem schedule_pulled (pulls : ℕ) (traversal : Traversal σ) :
    (pulled pulls traversal).schedule = traversal.schedule := by
  induction pulls generalizing traversal with
  | zero => rfl
  | succ pulls inductionHypothesis => exact (inductionHypothesis _).trans (schedule_next traversal)

theorem isSome_next_iff_of_yields {steps : List Step} (yields : traversal.Yields steps) :
    traversal.next.1.isSome = true ↔ steps ≠ [] := by
  cases yields with
  | ended none => simp [none]
  | step isNext => simp [isNext]

end Forecasts

/-! ### Between two pulls -/

section Cells

variable {histogram : Histogram} {wanted : ℕ → Bool} {cell previousValue start : ℕ}
  {traversal after : Traversal LastStop} {step : Step}

/-- Where a traversal that picks cells stands between two pulls: the cells after that of the last
step are due, or it is over and none of them is wanted. -/
inductive Rests (histogram : Histogram) (wanted : ℕ → Bool) (traversal : Traversal LastStop) : Prop
  | due {previousValue : ℕ}
      (isDue : Due histogram wanted traversal.state.following previousValue traversal)
  | ended (isOver : traversal.completed = true)
      (unwanted : ∀ index < histogram.counters.size, traversal.state.following ≤ index →
        wanted (histogram.count index) = false)

/-- The same within a pull, where cells that are not wanted may have been passed. -/
structure Passes (histogram : Histogram) (wanted : ℕ → Bool) (start cell : ℕ)
    (traversal : Traversal LastStop) : Prop where
  isDue : ∃ previousValue, Due histogram wanted cell previousValue traversal
  following_eq : traversal.state.following = start
  unwanted : ∀ index < cell, start ≤ index → wanted (histogram.count index) = false

theorem following_of_settled (due : Due histogram wanted cell previousValue traversal)
    (folded : traversal.position.fresh = false) : traversal.state.following = cell := by
  have cellEq := due.cell_eq
  rw [folded, if_neg Bool.false_ne_true] at cellEq
  rw [LastStop.following, due.settled folded, cellEq]
  rfl

namespace Passes

variable (sound : histogram.Sound) (passes : Passes histogram wanted start cell traversal)
include sound passes

theorem opened_eq :
    traversal.opened = (decide (cell < histogram.counters.size), traversal.state) := by
  obtain ⟨previousValue, due⟩ := passes.isDue
  exact due.opened_eq (Histogram.size_pos sound)

theorem of_finished (finished : traversal.turn = .finished after) :
    Rests histogram wanted after := by
  obtain ⟨isOver, rfl⟩ := turn_eq_finished_iff.mp finished
  rw [passes.opened_eq sound, decide_eq_false_iff_not] at isOver
  refine .ended rfl ?_
  intro index inside later
  rw [passes.opened_eq sound, passes.following_eq] at later
  exact passes.unwanted index (by omega) later

theorem of_stepped (stepped : traversal.turn = .stepped step after) :
    Rests histogram wanted after := by
  obtain ⟨previousValue, due⟩ := passes.isDue
  obtain ⟨goesOn, ends, -, isAfter⟩ := turn_eq_stepped_iff.mp stepped
  have inside : cell < histogram.counters.size := by
    simpa [due.opened_eq (Histogram.size_pos sound)] using goesOn
  rw [due.opened_of_lt inside, due.endsStep_eq, Bool.and_eq_true] at ends
  obtain ⟨isWanted, isFresh⟩ := ends
  rw [due.index_of_fresh isFresh] at isWanted
  obtain ⟨other, same, later⟩ := due.exists_stepped inside isFresh isWanted
  rw [stepped] at same
  cases same
  have folded : after.position.fresh = false := by
    rw [isAfter]
    exact Position.visited_fresh _
  rw [← following_of_settled later folded] at later
  exact .due later

/-- A move leaves a cell behind unless the last step ended there. -/
theorem of_moved (unwanted : ∀ count, wanted count = false → count = 0)
    (moved : traversal.turn = .moved after) :
    cell < histogram.counters.size ∧ traversal.position.index ≤ cell ∧
      ∃ nextCell, Passes histogram wanted start nextCell after := by
  obtain ⟨previousValue, due⟩ := passes.isDue
  obtain ⟨goesOn, passedBy, isAfter⟩ := turn_eq_moved_iff.mp moved
  have inside : cell < histogram.counters.size := by
    simpa [due.opened_eq (Histogram.size_pos sound)] using goesOn
  have sameState : after.state = traversal.state := by rw [isAfter, due.opened_of_lt inside]
  have following := (congrArg LastStop.following sameState).trans passes.following_eq
  refine ⟨inside, ?_⟩
  cases isFresh : traversal.position.fresh with
  | true =>
      rw [due.opened_of_lt inside, due.endsStep_eq, isFresh, Bool.and_true,
        due.index_of_fresh isFresh] at passedBy
      obtain ⟨other, same, later⟩ :=
        due.exists_moved_of_unwanted inside isFresh passedBy (unwanted _ passedBy)
      rw [moved] at same
      cases same
      refine ⟨(due.index_of_fresh isFresh).le, cell + 1, ⟨_, later⟩, following, ?_⟩
      intro index below isLater
      rcases Nat.lt_succ_iff_lt_or_eq.mp below with before | rfl
      · exact passes.unwanted index before isLater
      · exact passedBy
  | false =>
      have before : traversal.position.index < cell := due.before _ (due.settled isFresh)
      obtain ⟨other, same, -, later⟩ := due.exists_moved_of_settled inside isFresh
      rw [moved] at same
      cases same
      exact ⟨before.le, cell, ⟨_, later⟩, following, passes.unwanted⟩

end Passes

/-- A pull from rest comes to rest again. -/
theorem rests_run (sound : histogram.Sound)
    (unwanted : ∀ count, wanted count = false → count = 0)
    (passes : Passes histogram wanted start cell traversal) :
    Rests histogram wanted traversal.run.2 := by
  fun_induction run traversal generalizing cell with
  | case1 before after finished => exact passes.of_finished sound finished
  | case2 before step after stepped => exact passes.of_stepped sound stepped
  | case3 before after moved inside inductionHypothesis =>
      obtain ⟨-, -, nextCell, passesAfter⟩ := passes.of_moved sound unwanted moved
      exact inductionHypothesis passesAfter
  | case4 before after moved outside =>
      obtain ⟨counted, indexLe, -⟩ := passes.of_moved sound unwanted moved
      have word : cell < Word.max := histogram.layout.lt_max_of_counted (sound.size_eq ▸ counted)
      omega

namespace Rests

section Sound

variable (sound : histogram.Sound) (unwanted : ∀ count, wanted count = false → count = 0)
include sound unwanted

theorem next (rests : Rests histogram wanted traversal) :
    Rests histogram wanted traversal.next.2 := by
  cases rests with
  | due isDue =>
      rw [next_of_live isDue.live]
      refine rests_run sound unwanted ⟨⟨_, isDue⟩, rfl, ?_⟩
      intro index before after
      omega
  | ended isOver none =>
      rw [next_of_completed isOver]
      exact .ended isOver none

theorem pulled (pulls : ℕ) (rests : Rests histogram wanted traversal) :
    Rests histogram wanted (Traversal.pulled pulls traversal) := by
  induction pulls generalizing traversal with
  | zero => exact rests
  | succ pulls inductionHypothesis => exact inductionHypothesis (rests.next sound unwanted)

/-- A step comes next if and only if a wanted cell is left. -/
theorem isSome_next_iff (rests : Rests histogram wanted traversal) :
    traversal.next.1.isSome = true ↔ ∃ index < histogram.counters.size,
      traversal.state.following ≤ index ∧ wanted (histogram.count index) = true := by
  cases rests with
  | ended isOver none =>
      rw [next_of_completed isOver]
      refine iff_of_false Bool.false_ne_true ?_
      rintro ⟨index, inside, later, isWanted⟩
      rw [none index inside later] at isWanted
      exact Bool.false_ne_true isWanted
  | due isDue =>
      by_cases inside : traversal.state.following ≤ histogram.counters.size
      · have yields :=
          isDue.yields sound unwanted (Histogram.size_pos sound) (Nat.add_sub_cancel' inside)
        rw [isSome_next_iff_of_yields yields, ne_eq, ← List.length_eq_zero_iff,
          histogram.length_stepsOn, List.length_eq_zero_iff, List.filter_eq_nil_iff]
        push Not
        refine exists_congr fun index => ?_
        rw [List.mem_range'_1, Nat.add_sub_cancel' inside]
        tauto
      · have closed : traversal.opened.1 = false := by
          rw [isDue.opened_eq (Histogram.size_pos sound), decide_eq_false_iff_not]
          omega
        rw [next_of_live isDue.live, run_of_finished (turn_of_opened_eq_false closed)]
        refine iff_of_false Bool.false_ne_true ?_
        rintro ⟨index, isCell, later, -⟩
        omega

end Sound

/-- The forecast of such a traversal looks at all cells after that of the last step, wanted or
not. -/
theorem mayContinue_iff (sound : histogram.Sound)
    (rests : Rests histogram wanted traversal) :
    traversal.mayContinue = true ↔
      traversal.completed = false ∧ traversal.state.following < histogram.counters.size := by
  cases rests with
  | ended isOver => simp [mayContinue, isOver]
  | due isDue =>
      have isOpened := congrArg Prod.fst (isDue.opened_eq (Histogram.size_pos sound))
      rw [opened] at isOpened
      simp only [isDue.schedule_eq, Schedule.picking] at isOpened
      simp only [mayContinue, isDue.live, isDue.schedule_eq, Schedule.picking]
      split at isOpened <;> simp_all

end Rests

theorem state_opened (isPicking : traversal.schedule = .picking wanted) :
    traversal.opened.2 = traversal.state := by
  rw [opened, isPicking]
  split <;> rfl

theorem following_next (isPicking : traversal.schedule = .picking wanted) :
    traversal.next.2.state.following =
      if traversal.next.1.isSome then traversal.next.2.position.index + 1
      else traversal.state.following := by
  unfold next
  split
  next => rfl
  next live =>
    fun_induction run traversal with
    | case1 before after finished =>
        obtain ⟨-, rfl⟩ := turn_eq_finished_iff.mp finished
        exact congrArg LastStop.following (state_opened isPicking)
    | case2 before step after stepped =>
        obtain ⟨-, -, -, rfl⟩ := turn_eq_stepped_iff.mp stepped
        rw [isPicking]
        rfl
    | case3 before after moved inside inductionHypothesis =>
        obtain ⟨-, -, rfl⟩ := turn_eq_moved_iff.mp moved
        rw [inductionHypothesis isPicking live, state_opened isPicking]
    | case4 before after moved outside =>
        obtain ⟨-, -, rfl⟩ := turn_eq_moved_iff.mp moved
        exact congrArg LastStop.following (state_opened isPicking)

/-- The state keeps the cell of the last stop. -/
theorem following_pulled (pulls : ℕ) (isPicking : traversal.schedule = .picking wanted) :
    (pulled pulls traversal).state.following =
      (stops pulls traversal).getLast?.elim traversal.state.following (·.index + 1) := by
  induction pulls generalizing traversal with
  | zero => rfl
  | succ pulls inductionHypothesis =>
      have isFollowing := following_next isPicking
      have rest := inductionHypothesis ((schedule_next traversal).trans isPicking)
      rcases isNext : traversal.next with ⟨_ | step, after⟩
      · rw [isNext] at isFollowing rest
        rw [stops_of_none pulls isNext, pulled, isNext, rest, isFollowing,
          stops_of_completed pulls (completed_of_none isNext)]
        rfl
      · rw [isNext] at isFollowing rest
        rw [stops_of_some pulls isNext, pulled, isNext, rest, isFollowing, List.getLast?_cons]
        cases (stops pulls after).getLast? <;> rfl

end Cells

/-! ### Whole traversals -/

section Made

variable {histogram : Histogram}

/-- The traversals that pick cells have no closing step. -/
theorem foretells_of_picking {wanted : ℕ → Bool} {traversal : Traversal LastStop}
    (isPicking : traversal.schedule = .picking wanted) : traversal.Foretells := by
  apply foretells_of_agree
  rw [isPicking]
  rfl

theorem foretells_of_ticks {elementary : Elementary} {traversal : Traversal Ticks}
    (isTicks : traversal.schedule = .ticks elementary) : traversal.Foretells := by
  apply foretells_of_agree
  rw [isTicks]
  change (traversal.state.beginClosing traversal.position).1 = _
  unfold Ticks.beginClosing
  split
  next due => exact due.symm
  next none => exact (Bool.eq_false_of_not_eq_true none).symm

theorem rests_ofSchedule {wanted : ℕ → Bool} (sound : histogram.Sound)
    (unwanted : ∀ count, wanted count = false → count = 0) (recorded : 0 < histogram.total)
    (pulls : ℕ) :
    Rests histogram wanted (pulled pulls (ofSchedule histogram (.picking wanted) ⟨none⟩)) :=
  (Rests.due (due_ofSchedule recorded)).pulled sound unwanted pulls

theorem next_pulled_of_empty {σ : Type} {traversal : Traversal σ} (pulls : ℕ)
    (isOver : traversal.completed = true) :
    (pulled pulls traversal).mayContinue = false ∧ (pulled pulls traversal).next.1 = none := by
  rw [pulled_of_completed pulls isOver, mayContinue, next_of_completed isOver, isOver]
  exact ⟨rfl, rfl⟩

/-- The forecast of the traversal of every cell is right both ways. -/
theorem mayContinue_overEveryCell_iff (sound : histogram.Sound) (pulls : ℕ) :
    (pulled pulls (overEveryCell histogram)).mayContinue = true ↔
      (pulled pulls (overEveryCell histogram)).next.1.isSome = true := by
  rcases histogram.total.eq_zero_or_pos with isEmpty | recorded
  · have isOver : (overEveryCell histogram).completed = true := decide_eq_true isEmpty
    obtain ⟨noForecast, noStep⟩ := next_pulled_of_empty pulls isOver
    rw [noForecast, noStep]
    exact Iff.rfl
  · have unwanted : ∀ count : ℕ, true = false → count = 0 := nofun
    have rests := rests_ofSchedule sound unwanted recorded pulls
    rw [← Schedule.everyCell_eq_picking] at rests
    change Rests _ _ (pulled pulls (overEveryCell histogram)) at rests
    constructor
    · intro goesOn
      obtain ⟨-, inside⟩ := (rests.mayContinue_iff sound).mp goesOn
      exact (rests.isSome_next_iff sound unwanted).mpr ⟨_, inside, le_rfl, rfl⟩
    · intro isStep
      by_contra spent
      obtain ⟨last, isNext, -⟩ :=
        foretells_of_picking ((schedule_pulled pulls _).trans Schedule.everyCell_eq_picking)
          (Bool.eq_false_of_not_eq_true spent)
      rw [isNext] at isStep
      exact Bool.false_ne_true isStep

/-- The traversal of the held cells takes a step as long as a count is held after its last one. -/
theorem isSome_next_overHeldCells_iff (sound : histogram.Sound) (pulls : ℕ) :
    (pulled pulls (overHeldCells histogram)).next.1.isSome = true ↔
      match (stops pulls (overHeldCells histogram)).getLast? with
      | none => histogram.isEmpty = false
      | some stop => ∃ index, stop.index < index ∧ histogram.count index ≠ 0 := by
  rcases histogram.total.eq_zero_or_pos with isEmpty | recorded
  · have isOver : (overHeldCells histogram).completed = true := decide_eq_true isEmpty
    have empty : histogram.isEmpty = true := decide_eq_true isEmpty
    rw [(next_pulled_of_empty pulls isOver).2, stops_of_completed pulls isOver]
    exact iff_of_false Bool.false_ne_true (by simp [empty])
  · have unwanted : ∀ count : ℕ, decide (count ≠ 0) = false → count = 0 := by simp
    have rests := rests_ofSchedule sound unwanted recorded pulls
    have following := @following_pulled _ (overHeldCells histogram) pulls
      Schedule.heldCells_eq_picking
    rw [← Schedule.heldCells_eq_picking] at rests
    change Rests _ _ (pulled pulls (overHeldCells histogram)) at rests
    rw [rests.isSome_next_iff sound unwanted, following]
    cases (stops pulls (overHeldCells histogram)).getLast? with
    | none =>
        obtain ⟨highest, isHighest⟩ := Histogram.exists_highest sound recorded
        refine iff_of_true ⟨highest, Histogram.lt_size_of_getD_ne_zero isHighest.1,
          Nat.zero_le _, decide_eq_true isHighest.1⟩ ?_
        exact decide_eq_false recorded.ne'
    | some stop =>
        constructor
        · rintro ⟨index, -, later, isHeld⟩
          exact ⟨index, later, of_decide_eq_true isHeld⟩
        · rintro ⟨index, later, isHeld⟩
          exact ⟨index, Histogram.lt_size_of_getD_ne_zero isHeld, later, decide_eq_true isHeld⟩

/-- Between any two pulls of the traversals of every cell, of the held cells and along ticks: when
the forecast is that nothing comes, the next pull gives nothing and the traversal is over for good.
Over every cell the forecast is right both ways. Over the held cells a step comes if and only if a
count is held above the last stop, or there was no stop and something is counted. -/
theorem foretells_of_reachable {histogram : Histogram} (reachable : histogram.Reachable)
    (pulls : ℕ) :
    ((pulled pulls (overEveryCell histogram)).Foretells ∧
      ((pulled pulls (overEveryCell histogram)).mayContinue = true ↔
        (pulled pulls (overEveryCell histogram)).next.1.isSome = true)) ∧
    ((pulled pulls (overHeldCells histogram)).Foretells ∧
      ((pulled pulls (overHeldCells histogram)).next.1.isSome = true ↔
        match (stops pulls (overHeldCells histogram)).getLast? with
        | none => histogram.isEmpty = false
        | some stop => ∃ index, stop.index < index ∧ histogram.count index ≠ 0)) ∧
    ∀ (elementary : Elementary) (perHalf : ℕ) (traversal : Traversal Ticks),
      overTicks elementary histogram perHalf = .ok traversal →
        (pulled pulls traversal).Foretells := by
  have sound := Histogram.sound_of_reachable reachable
  refine ⟨⟨?_, mayContinue_overEveryCell_iff sound pulls⟩,
    ⟨?_, isSome_next_overHeldCells_iff sound pulls⟩, ?_⟩
  · exact foretells_of_picking ((schedule_pulled pulls _).trans Schedule.everyCell_eq_picking)
  · exact foretells_of_picking ((schedule_pulled pulls _).trans Schedule.heldCells_eq_picking)
  · intro elementary perHalf traversal made
    obtain ⟨-, rfl⟩ := overTicks_eq_ok_iff.mp made
    exact foretells_of_ticks (schedule_pulled pulls _)

/-- After the five steps on the cells of the sample the forecast is that nothing comes. -/
theorem sample_foretells : Histogram.sample.Reachable ∧
    (overHeldCells .sample).next.1.isSome = true ∧
    (pulled 5 (overEveryCell .sample)).mayContinue = false ∧
    (pulled 5 (overEveryCell .sample)).Exhausts ∧
    ∃ traversal, overTicks Elementary.machine .sample 2 = .ok traversal ∧
      (pulled 5 traversal).Foretells := by
  have reachable := Histogram.sample_reachable
  have recorded : Histogram.sample.isEmpty = false := by decide +kernel
  have yields := overEveryCell_yields reachable (total_pos_of_recorded recorded)
  have five : (Histogram.sample.stepsOn 0 (List.range Histogram.sample.counters.size)).length =
      5 := by
    rw [Histogram.length_stepsOn]
    decide +kernel
  obtain ⟨last, isNext, -⟩ := yields.completes
  rw [five] at isNext
  obtain ⟨⟨foretells, goesOn⟩, -, ticks⟩ := foretells_of_reachable reachable 5
  obtain ⟨-, ⟨-, held⟩, -⟩ := foretells_of_reachable reachable 0
  have spent : (pulled 5 (overEveryCell .sample)).mayContinue = false := by
    rw [← Bool.not_eq_true, goesOn, isNext]
    exact Bool.false_ne_true
  exact ⟨reachable, held.mpr recorded, spent, foretells spent, _, rfl, ticks _ 2 _ rfl⟩

end Made

end Traversal

end LogLinear
