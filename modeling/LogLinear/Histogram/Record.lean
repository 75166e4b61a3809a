import LogLinear.Histogram

/-!
Contract: recording values in a histogram.

Owns:
- the refusal of a recording, decided before anything changes;
- one or many occurrences of an integer value, and of several values in turn;
- one occurrence of a measured quantity.

A refused recording gives no histogram, so the one at hand stays what it was.

Does not own: several histograms. `LogLinear.Histogram.Merge` adds one to another.
-/

namespace LogLinear.Histogram

/-- Adds occurrences of a value that is known to be in range, with no check. -/
@[inline]
def tally (histogram : Histogram) (value count : Nat) : Histogram :=
  { histogram with
    counters := histogram.counters.modify (histogram.layout.cell value) (· + count)
    total := histogram.total + count
    extent := if count = 0 then histogram.extent
      else histogram.extent.cover histogram.layout.unitMask value }

/-- Whether the counter of a value and the total both have room for more occurrences. -/
def HasRoom (histogram : Histogram) (value count : Nat) : Prop :=
  histogram.count (histogram.layout.cell value) + count ≤ Word.max ∧
    histogram.total + count ≤ Word.max

instance (histogram : Histogram) (value count : Nat) :
    Decidable (histogram.HasRoom value count) := by
  unfold HasRoom
  infer_instance

/-- Adds occurrences of a value. No occurrences are a recording too: it may be refused, but it
changes nothing. -/
@[inline]
def recordMany (histogram : Histogram) (value count : Nat) : Except Fault Histogram :=
  match histogram.excess.accept histogram.layout value with
  | none => .error .outOfRange
  | some accepted =>
    if histogram.HasRoom accepted count then .ok (histogram.tally accepted count)
    else .error .overflow

/-- Adds occurrences of values one after the other, each value with its number of occurrences. One
refusal refuses them all. -/
def recordEach (histogram : Histogram) (records : List (Nat × Nat)) : Except Fault Histogram :=
  records.foldlM (fun histogram record => histogram.recordMany record.1 record.2) histogram

/-- Adds one occurrence of a value. -/
@[inline]
def record (histogram : Histogram) (value : Nat) : Except Fault Histogram :=
  histogram.recordMany value 1

/-- The integer that stands for a measured quantity: the quotient by the conversion ratio, without
its fraction and within the word range. Negative and infinite quantities and NaN have none. -/
def integerOf? (histogram : Histogram) (quantity : Float) : Option Nat :=
  if quantity.isFinite && !(quantity < 0.0) then
    some (Word.truncate (quantity / histogram.ratio))
  else none

/-- Adds one occurrence of a measured quantity. -/
@[inline]
def recordQuantity (histogram : Histogram) (quantity : Float) : Except Fault Histogram :=
  match histogram.integerOf? quantity with
  | none => .error .outOfRange
  | some value => histogram.record value

/-- A tally adds to the counter of its value and to no other one. -/
theorem count_tally (histogram : Histogram) (value count index : Nat)
    (inside : histogram.layout.cell value < histogram.counters.size) :
    (histogram.tally value count).count index =
      histogram.count index + if index = histogram.layout.cell value then count else 0 := by
  simp only [Histogram.count, tally, Array.getD_eq_getD_getElem?, Array.getElem?_modify]
  by_cases same : histogram.layout.cell value = index
  · subst same
    simp [inside]
  · simp [same, Ne.symm same]

theorem recordMany_eq_ok_iff {histogram after : Histogram} {value count : Nat} :
    histogram.recordMany value count = .ok after ↔
      ∃ accepted, histogram.excess.accept histogram.layout value = some accepted ∧
        histogram.HasRoom accepted count ∧ histogram.tally accepted count = after := by
  unfold recordMany
  cases histogram.excess.accept histogram.layout value with
  | none => simp
  | some accepted => by_cases room : histogram.HasRoom accepted count <;> simp [room]

theorem recordEach_nil (histogram : Histogram) : histogram.recordEach [] = .ok histogram := rfl

theorem recordEach_cons (histogram : Histogram) (record : Nat × Nat)
    (later : List (Nat × Nat)) :
    histogram.recordEach (record :: later) =
      histogram.recordMany record.1 record.2 >>= fun after => after.recordEach later := rfl

end LogLinear.Histogram
