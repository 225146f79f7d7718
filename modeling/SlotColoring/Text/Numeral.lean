/-!
# Decimal numerals
-/

namespace SlotColoring.Text

/-- The number that the digits stand for, after the digits of `n`. -/
def digitsValue? (n : Nat) : List Char → Option Nat
  | [] => some n
  | c :: cs => if c.isDigit then digitsValue? (10 * n + (c.toNat - '0'.toNat)) cs else none

/-- Reads one or more digits, with or without a plus sign in front. -/
def numeral? : List Char → Option Nat
  | [] => none
  | ['+'] => none
  | '+' :: cs => digitsValue? 0 cs
  | cs => digitsValue? 0 cs

end SlotColoring.Text
