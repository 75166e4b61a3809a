import LogLinear.Proofs.Histogram.Highest

/-!
Contract: the search for the cell of a rank.

Owns:
- the running count of the search, which is the sum of the counters it has passed;
- the cell at which it stops: the only one with fewer values before it than the rank, and with as
  many up to its end;
- the value that is reported for a rank, which is the minimum for the first rank, and the maximum for
  the ranks that the values below the highest cell do not reach.

Does not own: the rank of a percentile, nor the recorded values one by one.
`LogLinear.Proofs.Rank.Nearest` has the latter.
-/

namespace LogLinear.Histogram

section Search

variable {histogram : Histogram} {rank : Nat}

/-- The search is carried on with the sum of the counters before the index that is at hand, which has
not reached the rank. -/
theorem seekRank_spec (remaining index : Nat) (short : histogram.countBefore index < rank) :
    match seekRank histogram.counters rank remaining index (histogram.countBefore index) with
    | none => histogram.countBefore (index + remaining) < rank
    | some found =>
      histogram.countBefore found < rank ∧ rank ≤ histogram.countBefore (found + 1) := by
  induction remaining generalizing index with
  | zero => exact short
  | succ remaining inductionHypothesis =>
      have running : histogram.countBefore index + histogram.counters.getD index 0 =
          histogram.countBefore (index + 1) := (histogram.countBefore_succ index).symm
      rw [seekRank, running]
      split_ifs with reached
      · exact ⟨short, reached⟩
      · rw [show index + (remaining + 1) = index + 1 + remaining by omega]
        exact inductionHypothesis (index + 1) (Nat.lt_of_not_le reached)

variable (positive : 1 ≤ rank)
include positive

theorem indexOfRank?_spec :
    match histogram.indexOfRank? rank with
    | none => sumOf histogram.counters < rank
    | some found =>
      histogram.countBefore found < rank ∧ rank ≤ histogram.countBefore (found + 1) := by
  have spec := @seekRank_spec histogram rank histogram.counters.size 0
    (by rwa [countBefore_zero])
  rw [countBefore_zero, Nat.zero_add, countBefore_of_size_le _ le_rfl] at spec
  exact spec

theorem indexOfRank?_eq_some_iff {index : Nat} :
    histogram.indexOfRank? rank = some index ↔
      histogram.countBefore index < rank ∧ rank ≤ histogram.countBefore (index + 1) := by
  have spec := @indexOfRank?_spec histogram rank positive
  constructor
  · intro isFound
    rw [isFound] at spec
    exact spec
  · rintro ⟨before, reached⟩
    cases isFound : histogram.indexOfRank? rank with
    | none =>
        rw [isFound] at spec
        exact absurd (reached.trans (histogram.countBefore_le _)) spec.not_ge
    | some found =>
        rw [isFound] at spec
        have notBelow : index < found + 1 :=
          histogram.countBefore_mono.reflect_lt (before.trans_le spec.2)
        have notAbove : found < index + 1 :=
          histogram.countBefore_mono.reflect_lt (spec.1.trans_le reached)
        rw [show found = index by omega]

theorem indexOfRank?_eq_none_iff :
    histogram.indexOfRank? rank = none ↔ sumOf histogram.counters < rank := by
  have spec := @indexOfRank?_spec histogram rank positive
  constructor
  · intro isNone
    rw [isNone] at spec
    exact spec
  · intro beyond
    cases isFound : histogram.indexOfRank? rank with
    | none => rfl
    | some found =>
        rw [isFound] at spec
        exact absurd (spec.2.trans (histogram.countBefore_le _)) beyond.not_ge

theorem exists_indexOfRank? (inside : rank ≤ sumOf histogram.counters) :
    ∃ index, histogram.indexOfRank? rank = some index := by
  rw [← Option.ne_none_iff_exists', ne_eq, indexOfRank?_eq_none_iff positive]
  exact inside.not_gt

end Search

/-! ### The reported value -/

/-- The least or the greatest value of the cell of a rank, or the maximum for a rank that is not
reached. -/
def reported (histogram : Histogram) (least : Bool) (rank : Nat) : Nat :=
  match histogram.indexOfRank? rank with
  | some index =>
    if least then histogram.layout.floor (histogram.start index)
    else histogram.layout.ceiling (histogram.start index)
  | none => histogram.maximum

theorem reported_of_eq_some {histogram : Histogram} {rank index : Nat}
    (found : histogram.indexOfRank? rank = some index) (least : Bool) :
    histogram.reported least rank =
      if least then histogram.layout.floor (histogram.start index)
      else histogram.layout.ceiling (histogram.start index) := by
  rw [reported, found]

theorem percentile_eq {histogram : Histogram} {level : Float} (valid : 0.0 ≤ level ∧ level ≤ 100.0)
    (recorded : 0 < histogram.total) :
    histogram.percentile level =
      .ok (histogram.reported (level == 0.0) (rank level histogram.total)) := by
  have notEmpty : ¬ histogram.isEmpty = true := by
    rw [isEmpty, decide_eq_true_eq]
    exact recorded.ne'
  rw [percentile, if_pos valid, if_neg notEmpty, reported]
  cases histogram.indexOfRank? (rank level histogram.total) with
  | none => rfl
  | some index => rfl

theorem one_le_rank (level : Float) (total : Nat) : 1 ≤ rank level total := Nat.le_max_left _ _

/-! ### The ends of what is reported -/

section Ends

variable {histogram : Histogram} (sound : histogram.Sound) (recorded : 0 < histogram.total)
include sound recorded

/-- The search for the first rank stops at the lowest cell that holds a count. -/
theorem reported_one_eq_minimum : histogram.reported true 1 = histogram.minimum := by
  obtain ⟨index, found⟩ := exists_indexOfRank? (le_refl 1) (sound.total_eq ▸ recorded)
  obtain ⟨none, reached⟩ := (indexOfRank?_eq_some_iff le_rfl).mp found
  rw [countBefore_succ] at reached
  have lowest : IsLeast histogram.held index := by
    refine ⟨show histogram.count index ≠ 0 by omega, ?_⟩
    intro other isHeld
    by_contra before
    have part := histogram.countBefore_mono (Nat.lt_of_not_le before)
    rw [Nat.succ_eq_add_one, countBefore_succ] at part
    exact isHeld (by omega)
  have counted : index < histogram.counters.size := lt_size_of_getD_ne_zero lowest.1
  have isStart := histogram.layout.start_cell (histogram.layout.start_le_max index)
  rw [histogram.layout.cell_start_of_counted (sound.size_eq ▸ counted)] at isStart
  rw [reported_of_eq_some found, if_pos rfl, minimum_eq_start sound lowest]
  exact isStart.symm

/-- The maximum is reported for a rank if and only if the values below the highest cell are too few
for it. -/
theorem reported_eq_maximum_iff {rank : Nat} (positive : 1 ≤ rank) :
    histogram.reported false rank = histogram.maximum ↔ histogram.belowHighest < rank := by
  obtain ⟨top, highest⟩ := exists_highest sound recorded
  have isMaximum := maximum_eq_ceiling sound highest
  have below := belowHighest_eq sound highest
  have topInside : top < histogram.counters.size := lt_size_of_getD_ne_zero highest.1
  cases found : histogram.indexOfRank? rank with
  | none =>
      have beyond := (indexOfRank?_eq_none_iff positive).mp found
      have short := belowHighest_lt sound recorded
      rw [sound.total_eq] at short
      rw [reported, found]
      exact iff_of_true rfl (short.trans beyond)
  | some index =>
      obtain ⟨before, reached⟩ := (indexOfRank?_eq_some_iff positive).mp found
      rw [reported_of_eq_some found, if_neg Bool.false_ne_true, isMaximum, below]
      constructor
      · intro same
        have counted : index < histogram.counters.size := by
          apply lt_size_of_getD_ne_zero
          change histogram.count index ≠ 0
          rw [countBefore_succ] at reached
          omega
        have isTop : index = top := by
          rw [← cell_ceiling_start sound counted, same, cell_ceiling_start sound topInside]
        exact isTop ▸ before
      · intro few
        have isTop : histogram.indexOfRank? rank = some top := by
          rw [indexOfRank?_eq_some_iff positive, countBefore_highest_succ sound highest,
            sound.total_eq]
          exact ⟨few, reached.trans (histogram.countBefore_le _)⟩
        rw [isTop] at found
        cases found
        rfl

end Ends

end LogLinear.Histogram
