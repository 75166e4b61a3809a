import LogLinear.Proofs.Cell.Accuracy
import LogLinear.Proofs.Cell.Checked
import Mathlib.Order.Bounds.Basic

/-!
Contract: the sizes of a layout, as the least ones that meet a requirement and as a machine computes
them.

Owns:
- the divisions of an octave as the least power of two, and the octaves as the least number, that are
  enough for a requirement;
- the construction of a layout with words of fixed size, and the doubling that counts its octaves;
- the agreement of both: no requirement makes the construction leave a word or go on for ever;
- the requirements that have a layout, and the first condition that each other one does not meet.

Does not own: the functions on cells. `LogLinear.Proofs.Cell.Checked` has them.
-/

namespace LogLinear

/-! ### Least sizes -/

/-- With room for one bit, zero is no exception to the range of a logarithm. -/
theorem log2_lt_iff {number bits : Nat} (positive : 1 ≤ bits) :
    number.log2 < bits ↔ number < 2 ^ bits := by
  by_cases isZero : number = 0
  · simp [isZero]
    omega
  · exact Nat.log2_lt isZero

namespace Requirement

variable (requirement : Requirement)

/-- An octave has the least power of two divisions that tells values apart by single units up to twice
the power of ten. -/
theorem halfLog_least :
    IsLeast {exponent | 2 * 10 ^ requirement.figures ≤ 2 ^ exponent} (requirement.halfLog + 1) := by
  have positive : 0 < 10 ^ requirement.figures := Nat.pow_pos (by decide)
  have isLog : requirement.halfLog = (2 * 10 ^ requirement.figures - 1).log2 := rfl
  constructor
  · have below : 2 * 10 ^ requirement.figures - 1 < 2 ^ (requirement.halfLog + 1) :=
      isLog ▸ Nat.lt_log2_self
    rw [Set.mem_ofPred_eq]
    omega
  · intro exponent enough
    rw [Set.mem_ofPred_eq] at enough
    rw [Nat.succ_le_iff, isLog]
    exact (Nat.log2_lt (by omega)).mpr (by omega)

/-- The octaves are the fewest that end beyond the highest value. -/
theorem octaveCount_least :
    IsLeast {count | 1 ≤ count ∧
        requirement.highest < 2 ^ (requirement.unitLog + requirement.halfLog + count)}
      requirement.octaveCount := by
  have isMax : requirement.octaveCount =
    max 1 (requirement.highest.log2 + 1 - (requirement.unitLog + requirement.halfLog)) := rfl
  constructor
  · refine ⟨by omega, ?_⟩
    rw [← log2_lt_iff (by omega)]
    omega
  · rintro count ⟨positive, beyond⟩
    rw [← log2_lt_iff (by omega)] at beyond
    omega

end Requirement

/-! ### Requirements that can be met -/

/-- The fault names the first condition that the requirement does not meet. -/
def Requirement.Unmet (requirement : Requirement) : Fault → Prop
  | .lowestTooLow => requirement.lowest = 0
  | .figuresTooMany => 1 ≤ requirement.lowest ∧ 5 < requirement.figures
  | .highestTooLow =>
      1 ≤ requirement.lowest ∧ requirement.figures ≤ 5 ∧ requirement.highest < 2 * requirement.lowest
  | .resolutionTooFine =>
      1 ≤ requirement.lowest ∧ requirement.figures ≤ 5 ∧ 2 * requirement.lowest ≤ requirement.highest ∧
        61 < requirement.lowest.log2 + requirement.halfLog
  | _ => False

namespace Layout

theorem ofRequirement_eq_ok_iff {requirement : Requirement} {layout : Layout} :
    ofRequirement requirement = .ok layout ↔ layout.requirement = requirement := by
  constructor
  · intro made
    unfold ofRequirement at made
    split_ifs at made
    cases made
    rfl
  · rintro rfl
    exact layout.ofRequirement_requirement

theorem ofRequirement_eq_error_iff {requirement : Requirement} {fault : Fault} :
    ofRequirement requirement = .error fault ↔ requirement.Unmet fault := by
  unfold ofRequirement
  split_ifs <;> cases fault <;> simp_all [Requirement.Unmet, Requirement.unitLog] <;> omega

end Layout

/-! ### The construction of a machine -/

namespace Machine

/-- The product of two words, if it is a word of as many bits. -/
def mul? (bits left right : Nat) : Option Nat :=
  if left * right < 2 ^ bits then some (left * right) else none

/-- The power of a word, if it is a word of as many bits. -/
def pow? (bits base exponent : Nat) : Option Nat :=
  if base ^ exponent < 2 ^ bits then some (base ^ exponent) else none

theorem bounds_of_add? {bits left right sum : Nat} (isSum : add? bits left right = some sum) :
    sum = left + right ∧ sum < 2 ^ bits := by
  unfold add? at isSum
  split at isSum
  · rename_i small
    obtain rfl := Option.some.inj isSum
    exact ⟨rfl, small⟩
  · cases isSum

theorem mul?_eq_some {bits left right : Nat} (small : left * right < 2 ^ bits) :
    mul? bits left right = some (left * right) := if_pos small

/-- A shift up that loses no bits is a product. -/
theorem shiftLeft?_eq_mul {bits word amount : Nat} (few : amount < bits)
    (small : word * 2 ^ amount < 2 ^ bits) :
    shiftLeft? bits word amount = some (word * 2 ^ amount) := by
  rw [← Nat.shiftLeft_eq] at small ⊢
  exact shiftLeft?_eq_some few small

theorem pow?_eq_some {bits base exponent : Nat} (small : base ^ exponent < 2 ^ bits) :
    pow? bits base exponent = some (base ^ exponent) := if_pos small

end Machine

/-- The sizes that a machine keeps of a layout. -/
structure Sizes where
  unitLog : Nat
  /-- The bits within a unit. -/
  unitMask : Nat
  halfLog : Nat
  divisionCount : Nat
  /-- Half the divisions of an octave. -/
  halfCount : Nat
  baseMask : Nat
  /-- The leading zeros of the largest value of octave 0. -/
  baseZeros : Nat
  octaveCount : Nat
  cellCount : Nat
deriving DecidableEq, Repr

def Layout.sizes (layout : Layout) : Sizes where
  unitLog := layout.unitLog
  unitMask := layout.unitMask
  halfLog := layout.halfLog
  divisionCount := layout.divisionCount
  halfCount := 2 ^ layout.halfLog
  baseMask := layout.baseMask
  baseZeros := Layout.Checked.baseZeros layout
  octaveCount := layout.octaveCount
  cellCount := layout.cellCount

namespace Requirement.Checked

open Machine

/-- The number of octaves, found by doubling the least value beyond them until it exceeds the highest
value. An octave that would end beyond the words is the last one. Each turn counts an octave, so a
doubling that never got beyond would take the count out of its word at last, and has no result. -/
def countOctaves (highest beyond octaves : Nat) : Option Nat :=
  if beyond ≤ highest then
    if Word.max / 2 < beyond then add? 32 octaves 1
    else
      match _ : add? 32 octaves 1 with
      | none => none
      | some next => do countOctaves highest (← shiftLeft? 64 beyond 1) next
  else some octaves
termination_by 2 ^ 32 - octaves
decreasing_by
  obtain ⟨isNext, isWord⟩ := bounds_of_add? ‹add? 32 octaves 1 = some _›
  omega

def unitLog (requirement : Requirement) : Option Nat :=
  sub? 63 (leadingZeros requirement.lowest)

def halfLog (requirement : Requirement) : Option Nat := do
  let single ← mul? 64 2 (← pow? 64 10 requirement.figures)
  let divisionLog ← sub? 64 (leadingZeros (← sub? single 1))
  sub? (max divisionLog 1) 1

/-- The sizes that follow from the unit and the divisions of an octave. -/
def sizesFor (highest unitLog unitMask halfLog : Nat) : Option Sizes := do
  let divisionCount ← shiftLeft? 32 1 (← add? 32 halfLog 1)
  let baseMask ← shiftLeft? 64 (← sub? divisionCount 1) unitLog
  let baseZeros ← sub? (← sub? (← sub? 64 unitLog) halfLog) 1
  let octaveCount ← countOctaves highest (← shiftLeft? 64 divisionCount unitLog) 1
  let cellCount ← mul? 64 (← add? 64 octaveCount 1) (divisionCount / 2)
  return ⟨unitLog, unitMask, halfLog, divisionCount, divisionCount / 2, baseMask, baseZeros,
    octaveCount, cellCount⟩

/-- The sizes for a requirement, or the first condition that it does not meet. A lowest value whose
double is no word has no highest value that is large enough. -/
def sizes (requirement : Requirement) : Option (Except Fault Sizes) :=
  if requirement.lowest < 1 then some (.error .lowestTooLow)
  else if 5 < requirement.figures then some (.error .figuresTooMany)
  else if (mul? 64 requirement.lowest 2).any (· ≤ requirement.highest) then do
    let unitLog ← unitLog requirement
    let unitMask ← sub? (← shiftLeft? 64 1 unitLog) 1
    let halfLog ← halfLog requirement
    if 61 < (← add? 32 unitLog halfLog) then return .error .resolutionTooFine
    else return .ok (← sizesFor requirement.highest unitLog unitMask halfLog)
  else some (.error .highestTooLow)

/-! ### The doubling -/

theorem countOctaves_of_lt {highest base octaves : Nat} (positive : 1 ≤ octaves)
    (covered : highest < 2 ^ (base + octaves)) :
    countOctaves highest (2 ^ (base + octaves)) octaves =
      some (max octaves (highest.log2 + 1 - base)) := by
  rw [countOctaves, if_neg (Nat.not_le_of_lt covered)]
  rw [← log2_lt_iff (by omega)] at covered
  congr 1
  omega

theorem countOctaves_of_last {highest beyond octaves : Nat} (more : beyond ≤ highest)
    (last : Word.max / 2 < beyond) (few : octaves + 1 < 2 ^ 32) :
    countOctaves highest beyond octaves = some (octaves + 1) := by
  rw [countOctaves, if_pos more, if_pos last, add?_eq_some few]

theorem countOctaves_of_le {highest beyond octaves : Nat} (more : beyond ≤ highest)
    (inside : beyond ≤ Word.max / 2) (few : octaves + 1 < 2 ^ 32) :
    countOctaves highest beyond octaves = countOctaves highest (2 * beyond) (octaves + 1) := by
  have doubled : beyond <<< 1 = 2 * beyond := by
    rw [Nat.shiftLeft_eq, pow_one, Nat.mul_comm]
  have small : beyond <<< 1 < 2 ^ 64 := by
    have half : Word.max / 2 < 2 ^ 63 := by decide
    omega
  rw [countOctaves, if_pos more, if_neg (Nat.not_lt_of_le inside)]
  split
  · rename_i lost
    rw [add?_eq_some few] at lost
    cases lost
  · rename_i next counted
    obtain ⟨rfl, -⟩ := bounds_of_add? counted
    rw [shiftLeft?_eq_some (by decide) small, doubled]
    rfl

/-- The doubling starts at a power of two and stays with them. The last power of two that is a word
ends it at the latest. -/
theorem countOctaves_eq {highest base octaves : Nat} (word : highest ≤ Word.max)
    (positive : 1 ≤ octaves) (inside : base + octaves ≤ 63) :
    countOctaves highest (2 ^ (base + octaves)) octaves =
      some (max octaves (highest.log2 + 1 - base)) := by
  have highLog : highest.log2 < 64 := (log2_lt_iff (by decide)).mpr (Layout.word_lt word)
  obtain ⟨left, isLeft⟩ := Nat.exists_eq_add_of_le inside
  -- The induction is on the powers of two up to the last one that is a word.
  induction left generalizing octaves with
  | zero =>
      rcases lt_or_ge highest (2 ^ (base + octaves)) with covered | more
      · exact countOctaves_of_lt positive covered
      · have last : Word.max / 2 < 2 ^ (base + octaves) := by
          rw [← isLeft.trans (Nat.add_zero _)]
          decide
        rw [countOctaves_of_last more last (by omega)]
        rw [← Nat.not_lt, ← log2_lt_iff (by omega)] at more
        congr 1
        omega
  | succ left inductionHypothesis =>
      rcases lt_or_ge highest (2 ^ (base + octaves)) with covered | more
      · exact countOctaves_of_lt positive covered
      · have earlier : 2 ^ (base + octaves) ≤ Word.max / 2 :=
          (Nat.pow_le_pow_right (by decide) (by omega : base + octaves ≤ 62)).trans (by decide)
        have doubled : 2 * 2 ^ (base + octaves) = 2 ^ (base + (octaves + 1)) := by
          rw [← Nat.add_assoc, pow_succ, Nat.mul_comm]
        rw [countOctaves_of_le more earlier (by omega), doubled,
          inductionHypothesis (by omega) (by omega) (by omega)]
        rw [← Nat.not_lt, ← log2_lt_iff (by omega)] at more
        congr 1
        omega

/-! ### The agreement -/

theorem unitLog_eq {requirement : Requirement} (positive : 1 ≤ requirement.lowest) :
    unitLog requirement = some requirement.unitLog := by
  have small : requirement.lowest.log2 < 64 :=
    (log2_lt_iff (by decide)).mpr (Layout.word_lt requirement.lowest_le)
  rw [unitLog, leadingZeros_of_pos positive, sub?_eq_some (by omega), Requirement.unitLog]
  congr 1
  omega

/-- Five figures take at most 18 bits. -/
theorem halfLog_le {requirement : Requirement} (few : requirement.figures ≤ 5) :
    requirement.halfLog ≤ 17 := by
  have tens : 10 ^ requirement.figures ≤ 10 ^ 5 := Nat.pow_le_pow_right (by decide) few
  have below : 2 * 10 ^ requirement.figures - 1 < 2 ^ 18 := by omega
  exact Nat.le_of_lt_succ ((log2_lt_iff (by decide)).mpr below)

theorem halfLog_eq {requirement : Requirement} (few : requirement.figures ≤ 5) :
    halfLog requirement = some requirement.halfLog := by
  have tens : 10 ^ requirement.figures ≤ 10 ^ 5 := Nat.pow_le_pow_right (by decide) few
  have one : 0 < 10 ^ requirement.figures := Nat.pow_pos (by decide)
  have isLog : requirement.halfLog = (2 * 10 ^ requirement.figures - 1).log2 := rfl
  have narrow := halfLog_le few
  simp only [halfLog, Option.bind_eq_bind, pow?_eq_some (by omega : 10 ^ requirement.figures < 2 ^ 64),
    Option.bind_some, mul?_eq_some (by omega : 2 * 10 ^ requirement.figures < 2 ^ 64),
    sub?_eq_some (by omega : 1 ≤ 2 * 10 ^ requirement.figures),
    leadingZeros_of_pos (by omega : 0 < 2 * 10 ^ requirement.figures - 1), ← isLog,
    sub?_eq_some (by omega : 63 - requirement.halfLog ≤ 64),
    sub?_eq_some (Nat.le_max_right _ 1)]
  congr 1
  omega

/-- The sizes of a layout are what a machine finds for its unit and its divisions. -/
theorem sizesFor_eq (layout : Layout) :
    sizesFor layout.highest layout.unitLog (2 ^ layout.unitLog - 1) layout.halfLog =
      some layout.sizes := by
  have fits : layout.unitLog + layout.halfLog ≤ 61 := layout.fits
  have narrow : layout.halfLog ≤ 17 := layout.halfLog_eq ▸ halfLog_le layout.figures_le
  have half : 2 ^ layout.halfLog ≤ 2 ^ 17 := Nat.pow_le_pow_right Nat.two_pos narrow
  have divisionCount : layout.divisionCount = 2 ^ (layout.halfLog + 1) := by
    rw [Layout.divisionCount, Nat.shiftLeft_eq, one_mul]
  have halved : layout.divisionCount / 2 = 2 ^ layout.halfLog := by
    rw [divisionCount, pow_succ, Nat.mul_div_cancel _ Nat.two_pos]
  have divisions : shiftLeft? 32 1 (layout.halfLog + 1) = some layout.divisionCount := by
    rw [shiftLeft?_eq_mul (by omega) (by rw [pow_succ]; omega), one_mul, divisionCount]
  have mask : shiftLeft? 64 (layout.divisionCount - 1) layout.unitLog = some layout.baseMask := by
    have small : layout.baseMask < 2 ^ 64 :=
      layout.baseMask_lt.trans_le (Nat.pow_le_pow_right Nat.two_pos (by rw [Layout.baseLog]; omega))
    rw [layout.baseMask_eq_mul, ← divisionCount] at small ⊢
    exact shiftLeft?_eq_mul (by omega) small
  have beyond : shiftLeft? 64 layout.divisionCount layout.unitLog =
      some (2 ^ (layout.baseLog + 1)) := by
    have small : 2 ^ (layout.baseLog + 1) < 2 ^ 64 :=
      Nat.pow_lt_pow_right Nat.one_lt_two (by rw [Layout.baseLog]; omega)
    rw [← layout.divisionCount_mul_unit] at small ⊢
    exact shiftLeft?_eq_mul (by omega) small
  have octaves : countOctaves layout.highest (2 ^ (layout.baseLog + 1)) 1 =
      some layout.octaveCount := by
    rw [layout.octaveCount_eq_max]
    exact countOctaves_eq layout.highest_le le_rfl (by rw [Layout.baseLog]; omega)
  have few := layout.octaveCount_le
  have cells : mul? 64 (layout.octaveCount + 1) (2 ^ layout.halfLog) = some layout.cellCount := by
    rw [layout.cellCount_eq]
    exact mul?_eq_some
      ((Nat.mul_le_mul (by omega : layout.octaveCount + 1 ≤ 65) half).trans_lt (by decide))
  have positive : 0 < layout.divisionCount := divisionCount ▸ Nat.two_pow_pos _
  rw [← layout.unitMask_eq]
  simp only [sizesFor, Option.bind_eq_bind, Option.bind_some, Option.pure_def, divisions,
    add?_eq_some (by omega : layout.halfLog + 1 < 2 ^ 32), sub?_eq_some positive, mask,
    sub?_eq_some (by omega : layout.unitLog ≤ 64),
    sub?_eq_some (by omega : layout.halfLog ≤ 64 - layout.unitLog),
    sub?_eq_some (by omega : 1 ≤ 64 - layout.unitLog - layout.halfLog), beyond, octaves,
    add?_eq_some (by omega : layout.octaveCount + 1 < 2 ^ 64), halved, cells]
  rfl

/-- The double of the lowest value is compared only if it is a word, which the highest value is. -/
theorem any_mul?_iff {requirement : Requirement} :
    (mul? 64 requirement.lowest 2).any (· ≤ requirement.highest) = true ↔
      2 * requirement.lowest ≤ requirement.highest := by
  have word := Layout.word_lt requirement.highest_le
  unfold mul?
  split_ifs with small
  · rw [Option.any_some, decide_eq_true_eq, Nat.mul_comm]
  · rw [Option.any_none]
    simp only [Bool.false_eq_true, false_iff]
    omega

/-- Up to the check on the resolution, the unit and the divisions are those of the requirement. -/
theorem sizes_of_wide {requirement : Requirement} (positive : 1 ≤ requirement.lowest)
    (few : requirement.figures ≤ 5) (wide : 2 * requirement.lowest ≤ requirement.highest) :
    sizes requirement =
      if 61 < requirement.unitLog + requirement.halfLog then some (.error .resolutionTooFine)
      else (sizesFor requirement.highest requirement.unitLog (2 ^ requirement.unitLog - 1)
        requirement.halfLog).map .ok := by
  have narrow := halfLog_le few
  have short : requirement.unitLog < 64 :=
    (log2_lt_iff (by decide)).mpr (Layout.word_lt requirement.lowest_le)
  have unit : shiftLeft? 64 1 requirement.unitLog = some (2 ^ requirement.unitLog) := by
    rw [shiftLeft?_eq_mul short (by rw [one_mul]; exact Nat.pow_lt_pow_right (by decide) short),
      one_mul]
  have sum : add? 32 requirement.unitLog requirement.halfLog =
      some (requirement.unitLog + requirement.halfLog) := add?_eq_some (by omega)
  rw [sizes, if_neg (Nat.not_lt_of_le positive), if_neg (Nat.not_lt_of_le few),
    if_pos (any_mul?_iff.mpr wide)]
  simp only [unitLog_eq positive, halfLog_eq few, unit, sum, sub?_eq_some Nat.one_le_two_pow,
    Option.bind_eq_bind, Option.bind_some, Option.pure_def]
  split_ifs
  · rfl
  · rw [Option.map_eq_bind]
    rfl

theorem sizes_of_unmet {requirement : Requirement} {fault : Fault}
    (unmet : requirement.Unmet fault) : sizes requirement = some (.error fault) := by
  cases fault with
  | lowestTooLow =>
      have zero : requirement.lowest = 0 := unmet
      rw [sizes, if_pos (by omega)]
  | figuresTooMany =>
      obtain ⟨positive, many⟩ := unmet
      rw [sizes, if_neg (Nat.not_lt_of_le positive), if_pos many]
  | highestTooLow =>
      obtain ⟨positive, few, narrow⟩ := unmet
      rw [sizes, if_neg (Nat.not_lt_of_le positive), if_neg (Nat.not_lt_of_le few),
        if_neg (mt any_mul?_iff.mp (Nat.not_le_of_lt narrow))]
  | resolutionTooFine =>
      obtain ⟨positive, few, wide, fine⟩ := unmet
      exact (sizes_of_wide positive few wide).trans (if_pos fine)
  | _ => exact unmet.elim

theorem sizes_requirement (layout : Layout) : sizes layout.requirement = some (.ok layout.sizes) := by
  have fits : ¬ 61 < layout.unitLog + layout.halfLog := Nat.not_lt_of_le layout.fits
  rw [sizes_of_wide layout.lowest_pos layout.figures_le layout.twice_lowest_le,
    ← layout.unitLog_eq, ← layout.halfLog_eq, if_neg fits]
  exact congrArg (Option.map Except.ok) (sizesFor_eq layout)

/-- A machine finds the sizes of the layout of a requirement, or the same condition that is not met.
None of its operations leaves its words, and its loop ends. -/
theorem sizes_eq (requirement : Requirement) :
    sizes requirement = some ((Layout.ofRequirement requirement).map Layout.sizes) := by
  cases made : Layout.ofRequirement requirement with
  | error fault => exact sizes_of_unmet (Layout.ofRequirement_eq_error_iff.mp made)
  | ok layout =>
      obtain rfl := Layout.ofRequirement_eq_ok_iff.mp made
      exact sizes_requirement layout

end Requirement.Checked

/-! ### The choice of a layout -/

/-- The layout is the smallest one for the requirement. -/
structure Layout.Suits (layout : Layout) (requirement : Requirement) : Prop where
  requirement_eq : layout.requirement = requirement
  unitLog_eq : layout.unitLog = requirement.lowest.log2
  divisionCount_eq : layout.divisionCount = 2 ^ (requirement.halfLog + 1)
  octaveCount_least :
    IsLeast {count | 1 ≤ count ∧
        requirement.highest < 2 ^ (requirement.lowest.log2 + requirement.halfLog + count)}
      layout.octaveCount
  cellCount_eq : layout.cellCount = (layout.octaveCount + 1) * 2 ^ requirement.halfLog
  ofRequirement_eq : Layout.ofRequirement layout.requirement = .ok layout

theorem Layout.suits_requirement (layout : Layout) : layout.Suits layout.requirement where
  requirement_eq := rfl
  unitLog_eq := layout.unitLog_eq
  divisionCount_eq := by rw [divisionCount, Nat.shiftLeft_eq, one_mul, layout.halfLog_eq]
  octaveCount_least := layout.octaveCount_eq ▸ layout.requirement.octaveCount_least
  cellCount_eq := layout.halfLog_eq ▸ layout.cellCount_eq
  ofRequirement_eq := layout.ofRequirement_requirement

/-- A requirement has a layout if and only if its lowest value is positive, it asks for at most five
figures, its highest value is at least twice the lowest one, and octave 0 leaves room for another in a
word; otherwise it is refused for the first of these that fails. The divisions and the octaves are the
fewest that are enough, and the layout is again the one of its own requirement. A machine comes to the
same end: no operation on words of fixed size overflows, and the doubling that counts the octaves
ends. -/
theorem Layout.ofRequirement_chooses (requirement : Requirement) :
    IsLeast {exponent | 2 * 10 ^ requirement.figures ≤ 2 ^ exponent} (requirement.halfLog + 1) ∧
    Requirement.Checked.sizes requirement = some ((ofRequirement requirement).map sizes) ∧
    ((∃ layout, ofRequirement requirement = .ok layout) ↔
      1 ≤ requirement.lowest ∧ requirement.figures ≤ 5 ∧
        2 * requirement.lowest ≤ requirement.highest ∧
        requirement.lowest.log2 + requirement.halfLog ≤ 61) ∧
    (∀ fault, ofRequirement requirement = .error fault ↔ requirement.Unmet fault) ∧
    (∀ layout, ofRequirement requirement = .ok layout → layout.Suits requirement) := by
  refine ⟨requirement.halfLog_least, Requirement.Checked.sizes_eq requirement, ?_,
    fun _ => ofRequirement_eq_error_iff, ?_⟩
  · constructor
    · rintro ⟨layout, made⟩
      obtain rfl := ofRequirement_eq_ok_iff.mp made
      refine ⟨layout.lowest_pos, layout.figures_le, layout.twice_lowest_le, ?_⟩
      have fits := layout.fits
      rw [layout.unitLog_eq, layout.halfLog_eq] at fits
      exact fits
    · rintro ⟨positive, few, wide, fits⟩
      exact ⟨⟨requirement, _, _, _, _, rfl, rfl, rfl, rfl, positive, few, wide, fits⟩,
        ofRequirement_eq_ok_iff.mpr rfl⟩
  · intro layout made
    obtain rfl := ofRequirement_eq_ok_iff.mp made
    exact layout.suits_requirement

end LogLinear
