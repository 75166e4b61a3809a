import LogLinear.Histogram.Merge
import LogLinear.Proofs.Histogram.Sound

/-!
Contract: recordings and merges that overwrite the fields of a histogram one by one.

A refused operation gives no histogram. A machine has one histogram all the time, writes to it as it
goes on, and might be refused after it has written something.

Owns:
- changes of a histogram, which read its fields, write them and may be refused at any point;
- recording and merging as such changes, with their checks and writes in order;
- the agreement with the operations: a change that is refused leaves every field as it was.

Does not own: when an operation is refused.
-/

namespace LogLinear.Histogram

/-- A program that changes a histogram and may be refused on its way. What it has written by then
stays. -/
abbrev Change := EStateM Fault Histogram

namespace Change

/-- What a change comes to that is made as a whole or not at all. -/
def whole (histogram : Histogram) : Except Fault Histogram → EStateM.Result Fault Histogram Unit
  | .ok after => .ok () after
  | .error fault => .error fault histogram

/-- The sum of two words, if it is a word. -/
def sum (left right : Nat) : Change Nat :=
  if left + right ≤ Word.max then pure (left + right) else throw .overflow

/-- The value that is let in for a given one. -/
def accept (value : Nat) : Change Nat := do
  let histogram ← get
  match histogram.excess.accept histogram.layout value with
  | none => throw .outOfRange
  | some accepted => return accepted

def writeCounter (index counter : Nat) : Change Unit :=
  modify fun histogram => { histogram with counters := histogram.counters.set! index counter }

def writeTotal (total : Nat) : Change Unit :=
  modify fun histogram => { histogram with total := total }

def writeLeast (leastNonzero : Nat) : Change Unit :=
  modify fun histogram =>
    { histogram with extent := { histogram.extent with leastNonzero := leastNonzero } }

def writeGreatest (greatest : Nat) : Change Unit :=
  modify fun histogram => { histogram with extent := { histogram.extent with greatest := greatest } }

def raise (value : Nat) : Change Unit := do
  let last := value ||| (← get).layout.unitMask
  if (← get).extent.greatest < last then writeGreatest last

/-- A value of the first unit leaves the least one alone. -/
def lower (value : Nat) : Change Unit := do
  let unitMask := (← get).layout.unitMask
  if unitMask < value then
    let first := value &&& Word.complement unitMask
    if first < (← get).extent.leastNonzero then writeLeast first

/-- Covers one more value. Each word of the extent is compared before it is written. -/
def cover (value : Nat) : Change Unit := do
  raise value
  lower value

section Runs

variable {histogram : Histogram}

theorem sum_run_of_le {left right : Nat} (fits : left + right ≤ Word.max) :
    (sum left right).run histogram = .ok (left + right) histogram := by
  rw [sum, if_pos fits]
  rfl

theorem sum_run_of_lt {left right : Nat} (tooMany : Word.max < left + right) :
    (sum left right).run histogram = .error .overflow histogram := by
  rw [sum, if_neg (Nat.not_le_of_lt tooMany)]
  rfl

theorem accept_run_of_none {value : Nat}
    (rejected : histogram.excess.accept histogram.layout value = none) :
    (accept value).run histogram = .error .outOfRange histogram := by
  simp only [accept, EStateM.run_bind, EStateM.run_get, rejected]
  rfl

theorem accept_run_of_some {value accepted : Nat}
    (admitted : histogram.excess.accept histogram.layout value = some accepted) :
    (accept value).run histogram = .ok accepted histogram := by
  simp only [accept, EStateM.run_bind, EStateM.run_get, admitted]
  rfl

theorem raise_run (value : Nat) :
    (raise value).run histogram =
      .ok () { histogram with
        extent := histogram.extent.raise histogram.layout.unitMask value } := by
  unfold raise Extent.raise
  simp only [EStateM.run_bind, EStateM.run_get]
  split_ifs <;> rfl

theorem lower_run (value : Nat) :
    (lower value).run histogram =
      .ok () { histogram with
        extent := histogram.extent.lower histogram.layout.unitMask value } := by
  unfold lower Extent.lower
  simp only [EStateM.run_bind, EStateM.run_get]
  by_cases beyond : histogram.layout.unitMask < value
  · simp only [if_pos beyond, EStateM.run_bind, EStateM.run_get]
    split_ifs <;> rfl
  · simp only [if_neg beyond]
    rfl

theorem cover_run (value : Nat) :
    (cover value).run histogram =
      .ok () { histogram with
        extent := histogram.extent.cover histogram.layout.unitMask value } := by
  rw [cover, EStateM.run_bind, raise_run]
  exact lower_run value

end Runs

/-! ### Recording -/

/-- Both sums are checked before anything is written. -/
def recordMany (value count : Nat) : Change Unit := do
  let accepted ← accept value
  let index := (← get).layout.cell accepted
  let counter ← sum ((← get).count index) count
  let total ← sum (← get).total count
  writeCounter index counter
  writeTotal total
  if 0 < count then cover accepted

theorem set!_eq_modify (counters : Array Nat) (index count : Nat) :
    counters.set! index (counters.getD index 0 + count) = counters.modify index (· + count) := by
  rw [Array.set!_eq_setIfInBounds]
  apply Array.ext
  · rw [Array.size_setIfInBounds, Array.size_modify]
  · intro place inside _
    rw [Array.size_setIfInBounds] at inside
    rw [Array.getElem_setIfInBounds inside, Array.getElem_modify]
    split
    · rename_i same
      subst same
      rw [getD_eq_getElem inside]
    · rfl

/-- Recording in place is all or nothing. -/
theorem recordMany_run (histogram : Histogram) (value count : Nat) :
    (recordMany value count).run histogram =
      whole histogram (histogram.recordMany value count) := by
  unfold recordMany Histogram.recordMany
  cases admitted : histogram.excess.accept histogram.layout value with
  | none => simp only [EStateM.run_bind, accept_run_of_none admitted, whole]
  | some accepted =>
      simp only [EStateM.run_bind, accept_run_of_some admitted, EStateM.run_get]
      by_cases counterFits : histogram.count (histogram.layout.cell accepted) + count ≤ Word.max
      · by_cases totalFits : histogram.total + count ≤ Word.max
        · have room : histogram.HasRoom accepted count := ⟨counterFits, totalFits⟩
          simp only [sum_run_of_le counterFits, sum_run_of_le totalFits, if_pos room, whole,
            writeCounter, writeTotal, EStateM.run_modify]
          rw [Histogram.count, set!_eq_modify, tally]
          rcases Nat.eq_zero_or_pos count with rfl | positive
          · rfl
          · rw [if_pos positive, if_neg positive.ne']
            exact cover_run accepted
        · have full : ¬ histogram.HasRoom accepted count := fun room => totalFits room.2
          simp only [sum_run_of_le counterFits, sum_run_of_lt (Nat.lt_of_not_le totalFits),
            if_neg full, whole]
      · have full : ¬ histogram.HasRoom accepted count := fun room => counterFits room.1
        simp only [sum_run_of_lt (Nat.lt_of_not_le counterFits), if_neg full, whole]

def recordQuantity (quantity : Float) : Change Unit := do
  match (← get).integerOf? quantity with
  | none => throw .outOfRange
  | some value => recordMany value 1

theorem recordQuantity_run (histogram : Histogram) (quantity : Float) :
    (recordQuantity quantity).run histogram =
      whole histogram (histogram.recordQuantity quantity) := by
  unfold recordQuantity Histogram.recordQuantity
  rw [EStateM.run_bind, EStateM.run_get]
  dsimp only
  cases histogram.integerOf? quantity with
  | none => rfl
  | some value => exact recordMany_run histogram value 1

/-! ### Merging -/

/-- Adds a counter of another histogram to the one at the same index. -/
def addCounter (other : Histogram) (index : Nat) : Change Unit := do
  let counter ← sum ((← get).count index) (other.count index)
  writeCounter index counter

/-- Adds the counters before a bound, from the first one on. -/
def addCounters (other : Histogram) : (bound : Nat) → Change Unit
  | 0 => pure ()
  | bound + 1 => do
    addCounters other bound
    addCounter other bound

def addTotal (other : Histogram) : Change Unit := do
  let total ← sum (← get).total other.total
  writeTotal total
  if 0 < other.total then
    writeGreatest (max (← get).extent.greatest other.extent.greatest)
    writeLeast (min (← get).extent.leastNonzero other.extent.leastNonzero)

/-- Each counter is written before the next one is checked, and all of them before the total. -/
def mergeCounters (other : Histogram) : Change Unit := do
  addCounters other other.counters.size
  addTotal other

def recordEach (records : List (Nat × Nat)) : Change Unit :=
  records.forM fun record => recordMany record.1 record.2

/-- The change is made on a copy, which takes the place of the histogram at the end. -/
def merge (other : Histogram) : Change Unit := do
  let histogram ← get
  let change := if histogram.layout = other.layout then mergeCounters other
    else recordEach other.records
  match change.run histogram with
  | .ok _ merged => set merged
  | .error fault _ => throw fault

/-- The answer of a change, without what it leaves of the histogram if it is refused. -/
def result : EStateM.Result Fault Histogram Unit → Except Fault Histogram
  | .ok _ after => .ok after
  | .error fault _ => .error fault

theorem result_whole (histogram : Histogram) (answer : Except Fault Histogram) :
    result (whole histogram answer) = answer := by
  cases answer <;> rfl

theorem result_bind (histogram : Histogram) (first : Change Unit) (next : Unit → Change Unit) :
    result ((first >>= next).run histogram) =
      result (first.run histogram) >>= fun after => result ((next ()).run after) := by
  rw [EStateM.run_bind]
  cases first.run histogram <;> rfl

theorem recordEach_result (histogram : Histogram) (records : List (Nat × Nat)) :
    result ((recordEach records).run histogram) = histogram.recordEach records := by
  induction records generalizing histogram with
  | nil => rfl
  | cons record rest inductionHypothesis =>
      have step : recordEach (record :: rest) =
        recordMany record.1 record.2 >>= fun _ => recordEach rest := rfl
      rw [step, result_bind, recordMany_run, result_whole, recordEach_cons]
      simp only [inductionHypothesis]

theorem addCounter_result (histogram other : Histogram) (index : Nat) :
    result ((addCounter other index).run histogram) =
      if histogram.count index + other.count index ≤ Word.max then
        .ok { histogram with counters := histogram.counters.modify index (· + other.count index) }
      else .error .overflow := by
  rw [← set!_eq_modify]
  simp only [addCounter, EStateM.run_bind, EStateM.run_get]
  split_ifs with fits
  · rw [sum_run_of_le fits]
    rfl
  · rw [sum_run_of_lt (Nat.lt_of_not_le fits)]
    rfl

theorem addTotal_result (histogram other : Histogram) :
    result ((addTotal other).run histogram) =
      if histogram.total + other.total ≤ Word.max then
        .ok { histogram with
          total := histogram.total + other.total
          extent := if other.total = 0 then histogram.extent
            else histogram.extent.join other.extent }
      else .error .overflow := by
  simp only [addTotal, EStateM.run_bind, EStateM.run_get]
  by_cases fits : histogram.total + other.total ≤ Word.max
  · rw [sum_run_of_le fits, if_pos fits]
    by_cases none : other.total = 0
    · rw [if_pos none, if_neg (Nat.not_lt_of_le none.le)]
      rfl
    · rw [if_neg none, if_pos (Nat.pos_of_ne_zero none)]
      rfl
  · rw [sum_run_of_lt (Nat.lt_of_not_le fits), if_neg fits]
    rfl

/-- Counters of which those before a bound have been added to. -/
def addedBefore (counters : Array Nat) (other : Histogram) : (bound : Nat) → Array Nat
  | 0 => counters
  | bound + 1 => (addedBefore counters other bound).modify bound (· + other.count bound)

theorem size_addedBefore (counters : Array Nat) (other : Histogram) (bound : Nat) :
    (addedBefore counters other bound).size = counters.size := by
  induction bound with
  | zero => rfl
  | succ bound inductionHypothesis => simpa [addedBefore] using inductionHypothesis

theorem getD_addedBefore {counters : Array Nat} {other : Histogram} {bound : Nat}
    (inside : bound ≤ counters.size) (index : Nat) :
    (addedBefore counters other bound).getD index 0 =
      counters.getD index 0 + if index < bound then other.count index else 0 := by
  induction bound with
  | zero => simp [addedBefore]
  | succ bound inductionHypothesis =>
      have before := inductionHypothesis (Nat.le_of_succ_le inside)
      have place : bound < (addedBefore counters other bound).size := by
        rw [size_addedBefore]
        exact inside
      rw [addedBefore, getD_modify _ _ place]
      rcases Nat.lt_trichotomy index bound with below | rfl | above
      · rw [if_neg below.ne, before, if_pos below, if_pos (by omega)]
      · rw [if_pos rfl, before, if_neg (lt_irrefl _), if_pos (Nat.lt_succ_self _), Nat.add_zero]
      · rw [if_neg above.ne', before, if_neg (by omega), if_neg (by omega)]

section Pairs

variable {histogram other : Histogram}

/-- The counters are added up to the first one that has no room. -/
theorem addCounters_result {bound : Nat} (inside : bound ≤ histogram.counters.size) :
    result ((addCounters other bound).run histogram) =
      if ∀ index < bound, histogram.count index + other.count index ≤ Word.max then
        .ok { histogram with counters := addedBefore histogram.counters other bound }
      else .error .overflow := by
  induction bound with
  | zero => simp [addCounters, addedBefore, result]
  | succ bound inductionHypothesis =>
      have before := inductionHypothesis (Nat.le_of_succ_le inside)
      have place : (addedBefore histogram.counters other bound).getD bound 0 =
          histogram.count bound := by
        rw [getD_addedBefore (Nat.le_of_succ_le inside), if_neg (lt_irrefl _), Nat.add_zero, count]
      rw [addCounters, result_bind, before]
      simp only [Nat.forall_lt_succ_right]
      by_cases fits : ∀ index < bound, histogram.count index + other.count index ≤ Word.max
      · rw [if_pos fits]
        refine (addCounter_result _ other bound).trans ?_
        rw [count, place]
        by_cases last : histogram.count bound + other.count bound ≤ Word.max
        · rw [if_pos last, if_pos ⟨fits, last⟩]
          rfl
        · rw [if_neg last, if_neg (fun both => last both.2)]
      · rw [if_neg fits, if_neg (fun both => fits both.1)]
        rfl

variable (size : histogram.counters.size = other.counters.size)
include size

theorem addedBefore_size :
    addedBefore histogram.counters other other.counters.size = histogram.pairwiseSums other := by
  apply counters_ext
  · rw [size_addedBefore, size_pairwiseSums size]
  · intro index
    rw [getD_addedBefore size.ge, getD_pairwiseSums size]
    split_ifs with inside
    · rfl
    · exact congrArg _ (getD_eq_zero_of_size_le (Nat.le_of_not_lt inside)).symm

theorem pairwiseSums_all_iff :
    (histogram.pairwiseSums other).all (· ≤ Word.max) = true ↔
      ∀ index < other.counters.size, histogram.count index + other.count index ≤ Word.max := by
  have sums := size_pairwiseSums size
  simp only [Array.all_eq_true, decide_eq_true_eq]
  constructor
  · intro fits index inside
    have sum := fits index (by omega)
    rwa [← getD_eq_getElem, getD_pairwiseSums size] at sum
  · intro fits index inside
    rw [← getD_eq_getElem inside, getD_pairwiseSums size]
    exact fits index (by omega)

theorem mergeCounters_result :
    result ((mergeCounters other).run histogram) = histogram.mergeCounters other := by
  rw [mergeCounters, result_bind, addCounters_result size.ge, addedBefore_size size,
    Histogram.mergeCounters]
  simp only [pairwiseSums_all_iff size]
  by_cases fits : ∀ index < other.counters.size,
      histogram.count index + other.count index ≤ Word.max
  · rw [if_pos fits]
    refine (addTotal_result _ other).trans ?_
    by_cases room : histogram.total + other.total ≤ Word.max
    · exact (if_pos room).trans (if_pos ⟨fits, room⟩).symm
    · exact (if_neg room).trans (if_neg fun both => room both.2).symm
  · rw [if_neg fits, if_neg (fun both => fits both.1)]
    rfl

end Pairs

/-- Merging in place is all or nothing, whatever is left of the copy if it is refused. -/
theorem merge_run {histogram other : Histogram} (sound : histogram.Sound) (otherSound : other.Sound) :
    (merge other).run histogram = whole histogram (histogram.merge other) := by
  have copied : result ((if histogram.layout = other.layout then mergeCounters other
      else recordEach other.records).run histogram) = histogram.merge other := by
    rw [Histogram.merge]
    split_ifs with same
    · apply mergeCounters_result
      rw [sound.size_eq, otherSound.size_eq, same]
    · exact recordEach_result histogram other.records
  simp only [merge, EStateM.run_bind, EStateM.run_get, ← copied]
  cases (if histogram.layout = other.layout then mergeCounters other
    else recordEach other.records).run histogram <;> rfl

end Change

end LogLinear.Histogram
