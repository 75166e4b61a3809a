import LogLinear.Excess

/-!
Contract: requirements, layouts and rules in a self-describing document.

Owns:
- the shape of a document: the values that a text format such as JSON can write;
- reading and writing a requirement, a layout and a rule.

A layout is written as its requirement, and reading one checks the requirement. Reading a
requirement does not.

Does not own: the text of a document.
-/

namespace LogLinear

/-- A value of a self-describing format. A number that is not written as an integer is a `fraction`;
its value has no meaning here. -/
inductive Document where
  | null
  | boolean (value : Bool)
  | integer (value : Int)
  | fraction
  | text (value : String)
  | list (items : List Document)
  | record (fields : List (String × Document))
deriving Inhabited, Repr

namespace Document

/-- An integer from 0 up to a bound. -/
def natural? (bound : Nat) : Document → Option Nat
  | .integer value => if 0 ≤ value ∧ value ≤ bound then some value.toNat else none
  | _ => none

/-- The field of a name, if the record has it. -/
def field? (name : String) : Document → Option Document
  | .record fields => fields.lookup name
  | _ => none

end Document

/-- Why a document could not be read. -/
inductive Unreadable where
  /-- The document has not the shape of what is read. -/
  | malformed
  /-- The document has the right shape, but what it says is refused. -/
  | refused (fault : Fault)
deriving DecidableEq, Repr

namespace Requirement

/-- The largest number of figures that can be written. -/
def maxWrittenFigures : Nat := 255

/-- A requirement of the documents of its three numbers. -/
def ofParts? (lowest highest figures : Document) : Option Requirement := do
  let lowest ← lowest.natural? Word.max
  let highest ← highest.natural? Word.max
  let figures ← figures.natural? maxWrittenFigures
  Requirement.of? lowest highest figures

/-- Reads a requirement from a record with a field for each number, whatever other fields it has, or
from the list of the three numbers in this order. -/
def ofDocument? : Document → Option Requirement
  | .list [lowest, highest, figures] => ofParts? lowest highest figures
  | document => do
    let lowest ← document.field? "lowest_discernible_value"
    let highest ← document.field? "highest_trackable_value"
    let figures ← document.field? "significant_figures"
    ofParts? lowest highest figures

def toDocument (requirement : Requirement) : Document :=
  .record [
    ("lowest_discernible_value", .integer requirement.lowest),
    ("highest_trackable_value", .integer requirement.highest),
    ("significant_figures", .integer requirement.figures)]

end Requirement

namespace Layout

def ofDocument (document : Document) : Except Unreadable Layout :=
  match Requirement.ofDocument? document with
  | none => .error .malformed
  | some requirement =>
    match ofRequirement requirement with
    | .error fault => .error (.refused fault)
    | .ok layout => .ok layout

def toDocument (layout : Layout) : Document := layout.requirement.toDocument

end Layout

namespace Excess

/-- Reads a rule from its name, or from a record whose only field is that name with nothing in
it. -/
def ofDocument? : Document → Option Excess
  | .text name => ofName? name
  | .record [(name, .null)] => ofName? name
  | _ => none

def toDocument (excess : Excess) : Document := .text excess.name

theorem ofDocument?_toDocument (excess : Excess) : ofDocument? excess.toDocument = some excess :=
  ofName?_name excess

end Excess

end LogLinear
