import LogLinear.Histogram.Merge
import LogLinear.Setup

/-!
Contract: the notes for a log that operations give rise to.

An operation and its notes are separate functions of the same arguments, so what is done never
depends on what is logged.

Owns:
- the note on the layout of a new histogram;
- the notes on values that are clamped, in the order in which they are recorded;
- the note on a snapshot.

Does not own: where notes are written.
-/

namespace LogLinear

inductive Note.Level where
  | debug
  | trace
deriving DecidableEq, Repr

/-- A line of a log. -/
structure Note where
  level : Note.Level
  text : String
deriving DecidableEq, Repr

/-- The note on a layout that was chosen for a histogram. -/
def Layout.note (layout : Layout) (excess : Excess) : Note where
  level := .debug
  text := s!"histogram layout: {layout.octaveCount} buckets of {layout.divisionCount} sub-buckets" ++
    s!" in {layout.cellCount} counters, unit magnitude {layout.unitLog}, " ++
    s!"{excess.name} on overflow"

/-- A valid setup gives rise to the note on its layout. That the counters do not fit it shows only
later. -/
def Setup.notes (setup : Setup) : List Note :=
  match setup.checkedLayout with
  | .error _ => []
  | .ok layout => [layout.note setup.excess]

/-- A value that another one is recorded for gives rise to a note, even if the counters turn out to
have no room. -/
def Excess.notes (excess : Excess) (layout : Layout) (value : Nat) : List Note :=
  match excess with
  | .reject => []
  | .clamp =>
    if value ≤ layout.highest then []
    else [⟨.trace, s!"clamping {value} to highest trackable value {layout.highest}"⟩]

namespace Histogram

def recordNotes (histogram : Histogram) (value : Nat) : List Note :=
  histogram.excess.notes histogram.layout value

def recordQuantityNotes (histogram : Histogram) (quantity : Float) : List Note :=
  match histogram.integerOf? quantity with
  | none => []
  | some value => histogram.recordNotes value

/-- The notes on recording several values in turn, up to the first one that is refused. -/
def recordEachNotes (histogram : Histogram) : List (Nat × Nat) → List Note
  | [] => []
  | (value, count) :: later =>
    histogram.recordNotes value ++
      match histogram.recordMany value count with
      | .error _ => []
      | .ok histogram => histogram.recordEachNotes later

/-- Only a merge of different layouts records values anew. -/
def mergeNotes (histogram other : Histogram) : List Note :=
  if histogram.layout = other.layout then [] else histogram.recordEachNotes other.records

end Histogram

namespace Collector

def recordNotes (collector : Collector) (value : Nat) : List Note :=
  collector.excess.notes collector.layout value

def snapshotNote (collector : Collector) : Note where
  level := .trace
  text := s!"snapshot of atomic histogram with {collector.snapshot.total} values"

end Collector

end LogLinear
