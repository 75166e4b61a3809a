/-!
Contract: the causes for which a requirement, a recording or a query is refused.

Owns:
- one constructor per cause;
- the numeric code that groups causes by kind;
- the wording of a cause, alone, with its code, and as a JSON object.

Does not own: which operation is refused for which cause.
-/

namespace LogLinear

/-- Why an operation was refused. -/
inductive Fault where
  /-- The lowest discernible value is zero. -/
  | lowestTooLow
  /-- The highest trackable value is below twice the lowest discernible value. -/
  | highestTooLow
  /-- More than five significant figures are asked for. -/
  | figuresTooMany
  /-- The base octave does not leave room for another octave in a word. -/
  | resolutionTooFine
  /-- The conversion ratio is not a positive finite number. -/
  | ratioInvalid
  /-- A value is not in the trackable range. -/
  | outOfRange
  /-- A list of counters has another length than the layout. -/
  | layoutMismatch
  /-- A percentile is not between 0 and 100. -/
  | percentileInvalid
  /-- A percentile schedule has no ticks. -/
  | ticksInvalid
  /-- A query needs at least one recorded value. -/
  | empty
  /-- A counter or the total would leave the word range. -/
  | overflow
deriving DecidableEq, Repr

namespace Fault

/-- The error number of the kind of refusal: a result out of range (34), no data (61), a value too
large for its type (75), or an invalid argument (22). -/
def code : Fault → Nat
  | .outOfRange => 34
  | .empty => 61
  | .overflow => 75
  | .lowestTooLow | .highestTooLow | .figuresTooMany | .resolutionTooFine | .ratioInvalid
  | .layoutMismatch | .percentileInvalid | .ticksInvalid => 22

def message : Fault → String
  | .lowestTooLow => "lowest discernible value must be >= 1"
  | .highestTooLow => "highest trackable value must be >= 2 * lowest discernible value"
  | .figuresTooMany => "significant figures must be in range 0..=5"
  | .resolutionTooFine => "the requested resolution cannot be represented with 64bit values"
  | .ratioInvalid => "conversion ratio must be finite and greater than zero"
  | .outOfRange => "the value is outside of the trackable range"
  | .layoutMismatch => "the number of counters does not match the histogram layout"
  | .percentileInvalid => "invalid percentile, must be in range 0.0..=100.0"
  | .ticksInvalid => "percentile ticks per half distance must be greater than zero"
  | .empty => "histogram contains no observations"
  | .overflow => "an overflow occurred"

/-- The message, followed by the code in parentheses. -/
def codedMessage (fault : Fault) : String :=
  fault.message ++ " (" ++ toString fault.code ++ ")"

/-- The code and the message as the text of a JSON object. No message holds a character that JSON
would have to escape. -/
def report (fault : Fault) : String :=
  "\x7b\"code\":" ++ toString fault.code ++ ",\"message\":\"" ++ fault.message ++ "\"\x7d"

end Fault

end LogLinear
