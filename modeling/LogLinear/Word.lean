/-!
Contract: sixty-four bit words, kept as natural numbers with an explicit bound.

Owns:
- the largest word, results capped at it, and the word with all bits flipped;
- sums that leave the word range without a trace;
- the conversions between words and binary64 numbers.

Does not own: what a word counts or measures.
-/

namespace LogLinear.Word

/-- The largest word: all sixty-four bits set. -/
def max : Nat := 0xFFFFFFFFFFFFFFFF

/-- A natural number, or the largest word if the number is not a word. -/
def cap (number : Nat) : Nat := min number max

/-- The word with all bits of a word flipped. -/
def complement (word : Nat) : Nat := max - word

/-- The sum of two words as a sixty-four bit adder leaves it, without its carry. -/
def wrappingSum (left right : Nat) : Nat := (left + right) % (max + 1)

/-- The binary64 number nearest to a word, ties going to the even significand. -/
def toFloat (word : Nat) : Float := word.toUInt64.toFloat

/-- The whole part of a number, brought into the word range: numbers below zero and NaN give
zero, numbers above the range give the largest word. -/
def truncate (number : Float) : Nat := number.toUInt64.toNat

/-- The least word that is not below a number, brought into the word range in the same way.

A number with a fractional part is below `2 ^ 53`, so its whole part converts back exactly and
compares as smaller; a whole number converts back to itself. -/
def roundUp (number : Float) : Nat :=
  if toFloat (truncate number) < number then cap (truncate number + 1) else truncate number

theorem one_le_max : 1 ≤ max := by decide

theorem cap_le (number : Nat) : cap number ≤ max := Nat.min_le_right _ _

theorem cap_of_le {number : Nat} (word : number ≤ max) : cap number = number :=
  Nat.min_eq_left word

theorem cap_of_ge {number : Nat} (beyond : max ≤ number) : cap number = max :=
  Nat.min_eq_right beyond

theorem truncate_le (number : Float) : truncate number ≤ max :=
  Nat.le_of_lt_succ number.toUInt64.toNat_lt

theorem wrappingSum_of_le {left right : Nat} (word : left + right ≤ max) :
    wrappingSum left right = left + right :=
  Nat.mod_eq_of_lt (Nat.lt_succ_of_le word)

end LogLinear.Word
