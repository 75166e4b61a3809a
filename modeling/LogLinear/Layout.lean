import LogLinear.Fault
import LogLinear.Requirement

/-!
Contract: the arrangement of counters that meets a requirement.

The values are cut into octaves. Octave 0 starts at zero, and each later octave covers twice the
range of the one before. An octave is cut into equally wide divisions, so their width doubles from
octave to octave while the relative error stays the same. The lower half of a later octave is the
range of the octaves before it, so only its upper half has counters of its own.

Owns:
- the sizes of an arrangement, computed once from its requirement;
- the conditions under which a requirement can be met, and their order.

Does not own: the cell of a value. `LogLinear.Layout.Cell` does.
-/

namespace LogLinear

/-- A requirement that can be met, with the sizes that follow from it. -/
structure Layout where
  requirement : Requirement
  /-- The binary logarithm of the unit. -/
  unitLog : Nat
  /-- The binary logarithm of half the divisions of an octave. -/
  halfLog : Nat
  /-- The bits that number the divisions of octave 0. -/
  baseMask : Nat
  octaveCount : Nat
  unitLog_eq : unitLog = requirement.unitLog
  halfLog_eq : halfLog = requirement.halfLog
  baseMask_eq : baseMask = requirement.baseMask
  octaveCount_eq : octaveCount = requirement.octaveCount
  lowest_pos : 1 ≤ requirement.lowest
  figures_le : requirement.figures ≤ 5
  twice_lowest_le : 2 * requirement.lowest ≤ requirement.highest
  fits : unitLog + halfLog ≤ 61
deriving DecidableEq, Repr

namespace Layout

/-- The layout of a requirement, or the first condition that the requirement does not meet. -/
def ofRequirement (requirement : Requirement) : Except Fault Layout :=
  if lowestPositive : 1 ≤ requirement.lowest then
    if fewFigures : requirement.figures ≤ 5 then
      if wideEnough : 2 * requirement.lowest ≤ requirement.highest then
        if fits : requirement.unitLog + requirement.halfLog ≤ 61 then
          .ok ⟨requirement, requirement.unitLog, requirement.halfLog, requirement.baseMask,
            requirement.octaveCount, rfl, rfl, rfl, rfl, lowestPositive, fewFigures, wideEnough,
            fits⟩
        else .error .resolutionTooFine
      else .error .highestTooLow
    else .error .figuresTooMany
  else .error .lowestTooLow

/-- The largest value that can be recorded. -/
def highest (layout : Layout) : Nat := layout.requirement.highest

/-- The bits of a value within its unit. -/
def unitMask (layout : Layout) : Nat := (1 <<< layout.unitLog) - 1

/-- The number of divisions of an octave. -/
def divisionCount (layout : Layout) : Nat := 1 <<< (layout.halfLog + 1)

/-- The number of counters: all divisions of octave 0, and half of those of each later octave. -/
def cellCount (layout : Layout) : Nat := (layout.octaveCount + 1) <<< layout.halfLog

/-- Layouts of one requirement are one layout. -/
theorem eq_of_requirement_eq {left right : Layout}
    (same : left.requirement = right.requirement) : left = right := by
  obtain ⟨_, _, _, _, _, leftUnit, leftHalf, leftMask, leftOctaves, _, _, _, _⟩ := left
  obtain ⟨_, _, _, _, _, rightUnit, rightHalf, rightMask, rightOctaves, _, _, _, _⟩ := right
  cases same
  cases leftUnit
  cases leftHalf
  cases leftMask
  cases leftOctaves
  cases rightUnit
  cases rightHalf
  cases rightMask
  cases rightOctaves
  rfl

/-- A layout is what its own requirement gives. -/
theorem ofRequirement_requirement (layout : Layout) :
    ofRequirement layout.requirement = .ok layout := by
  have fits : layout.requirement.unitLog + layout.requirement.halfLog ≤ 61 := by
    rw [← layout.unitLog_eq, ← layout.halfLog_eq]
    exact layout.fits
  unfold ofRequirement
  simp only [layout.lowest_pos, layout.figures_le, layout.twice_lowest_le, fits, ↓reduceDIte,
    Except.ok.injEq]
  exact eq_of_requirement_eq rfl

end Layout

end LogLinear
