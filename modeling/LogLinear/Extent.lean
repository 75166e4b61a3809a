import LogLinear.Word

/-!
Contract: the least and the greatest of the recorded values, kept as two words.

The words are exact to a unit only. Each has a neutral value that stands for nothing recorded: the
largest word for the least value, and zero for the greatest one. The values of the first unit are
equivalent to zero. They never become the least value, so whether any of them was recorded has to be
seen from elsewhere.

Owns:
- the empty extent;
- the extent that covers one more value, and the one of two extents together.

Does not own: the cells. Either word may be any value of the cell that it stands for.
-/

namespace LogLinear

/-- The ends of the recorded values. -/
structure Extent where
  /-- The least value beyond the first unit, with the bits within its unit cleared. -/
  leastNonzero : Nat
  /-- The greatest value, with the bits within its unit set. -/
  greatest : Nat
deriving DecidableEq, Repr

namespace Extent

def empty : Extent := ⟨Word.max, 0⟩

/-- Raises the greatest value to a value with the bits of its unit set. -/
def raise (extent : Extent) (unitMask value : Nat) : Extent :=
  if extent.greatest < value ||| unitMask then { extent with greatest := value ||| unitMask }
  else extent

/-- Lowers the least value to a value with the bits of its unit cleared, unless that is zero. -/
def lower (extent : Extent) (unitMask value : Nat) : Extent :=
  if unitMask < value then
    if value &&& Word.complement unitMask < extent.leastNonzero then
      { extent with leastNonzero := value &&& Word.complement unitMask }
    else extent
  else extent

/-- The extent with one more value, for units of which the mask has the bits. -/
def cover (extent : Extent) (unitMask value : Nat) : Extent :=
  (extent.raise unitMask value).lower unitMask value

/-- The extent of two collections. -/
def join (left right : Extent) : Extent :=
  ⟨min left.leastNonzero right.leastNonzero, max left.greatest right.greatest⟩

theorem raise_eq (extent : Extent) (unitMask value : Nat) :
    extent.raise unitMask value =
      { extent with greatest := max extent.greatest (value ||| unitMask) } := by
  unfold raise
  split
  · rename_i above
    rw [Nat.max_eq_right (Nat.le_of_lt above)]
  · rename_i within
    rw [Nat.max_eq_left (Nat.le_of_not_lt within)]

theorem lower_eq (extent : Extent) (unitMask value : Nat) :
    extent.lower unitMask value =
      if unitMask < value then
        { extent with
          leastNonzero := min extent.leastNonzero (value &&& Word.complement unitMask) }
      else extent := by
  unfold lower
  split
  · split
    · rename_i below
      rw [Nat.min_eq_right (Nat.le_of_lt below)]
    · rename_i within
      rw [Nat.min_eq_left (Nat.le_of_not_lt within)]
  · rfl

/-- The guards and the comparisons come to a minimum and a maximum. -/
theorem cover_eq (extent : Extent) (unitMask value : Nat) :
    extent.cover unitMask value =
      ⟨if unitMask < value then min extent.leastNonzero (value &&& Word.complement unitMask)
        else extent.leastNonzero,
        max extent.greatest (value ||| unitMask)⟩ := by
  rw [cover, raise_eq, lower_eq]
  split <;> rfl

theorem cover_comm (extent : Extent) (unitMask first second : Nat) :
    (extent.cover unitMask first).cover unitMask second =
      (extent.cover unitMask second).cover unitMask first := by
  have greatest := Nat.max_right_comm extent.greatest (first ||| unitMask) (second ||| unitMask)
  have least := Nat.min_right_comm extent.leastNonzero (first &&& Word.complement unitMask)
    (second &&& Word.complement unitMask)
  simp only [cover_eq, greatest]
  split <;> split <;> simp only [least]

/-- A value may be covered before or after a join. -/
theorem join_cover (left right : Extent) (unitMask value : Nat) :
    left.join (right.cover unitMask value) = (left.join right).cover unitMask value := by
  simp only [join, cover_eq, Nat.max_assoc]
  split <;> simp only [Nat.min_assoc]

theorem join_empty {extent : Extent} (word : extent.leastNonzero ≤ Word.max) :
    extent.join empty = extent := by
  rw [join, empty, Nat.min_eq_left word, Nat.max_zero]

end Extent

end LogLinear
