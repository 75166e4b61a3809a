import LogLinear.Layout

/-!
Contract: what becomes of a value above the trackable range.

Owns:
- the two rules and their names;
- the value that is recorded in place of a given one.

Does not own: the recording.
-/

namespace LogLinear

/-- The rule for values above the highest trackable one. -/
inductive Excess where
  /-- The value is refused. -/
  | reject
  /-- The highest trackable value is recorded instead. -/
  | clamp
deriving DecidableEq, Repr

namespace Excess

def name : Excess → String
  | .reject => "Reject"
  | .clamp => "Clamp"

def ofName? : String → Option Excess
  | "Reject" => some .reject
  | "Clamp" => some .clamp
  | _ => none

theorem ofName?_name (excess : Excess) : ofName? excess.name = some excess := by
  cases excess <;> rfl

/-- The value that the rule lets in for a given one, if any. -/
def accept (excess : Excess) (layout : Layout) (value : Nat) : Option Nat :=
  if value ≤ layout.highest then some value
  else match excess with
    | .reject => none
    | .clamp => some layout.highest

theorem accept_of_le {excess : Excess} {layout : Layout} {value : Nat}
    (trackable : value ≤ layout.highest) : excess.accept layout value = some value :=
  if_pos trackable

theorem accept_clamp (layout : Layout) (value : Nat) :
    Excess.clamp.accept layout value = some (min value layout.highest) := by
  unfold accept
  split <;> simp <;> omega

theorem accept_eq_none_iff {excess : Excess} {layout : Layout} {value : Nat} :
    excess.accept layout value = none ↔ excess = .reject ∧ layout.highest < value := by
  unfold accept
  split <;> cases excess <;> simp <;> omega

theorem le_highest_of_accept {excess : Excess} {layout : Layout} {value accepted : Nat}
    (isAccepted : excess.accept layout value = some accepted) : accepted ≤ layout.highest := by
  unfold accept at isAccepted
  split at isAccepted
  · rename_i trackable
    exact Option.some.inj isAccepted ▸ trackable
  · cases excess with
    | reject => cases isAccepted
    | clamp => exact Nat.le_of_eq (Option.some.inj isAccepted).symm

end Excess

end LogLinear
