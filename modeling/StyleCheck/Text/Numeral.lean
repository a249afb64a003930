/-!
# Numerals

Integers written in decimal digits.
-/

namespace StyleCheck.Numeral

def isBlank (c : Char) : Bool := c == ' ' || ('\t' ≤ c && c ≤ '\r')

/-- The number that digits go on to write. An underscore may stand between two digits;
`closed` says whether a digit came last. -/
def digitsFrom : (closed : Bool) → (value : Nat) → List Char → Option Nat
  | closed, value, [] => if closed then some value else none
  | closed, value, c :: cs =>
    if '0' ≤ c ∧ c ≤ '9' then digitsFrom true (value * 10 + (c.toNat - '0'.toNat)) cs
    else if c = '_' ∧ closed then digitsFrom false value cs
    else none

/-- The integer that digits write with a sign or none in front of them. -/
def signed : List Char → Option Int
  | '-' :: cs => (digitsFrom false 0 cs).map fun n => -(n : Int)
  | '+' :: cs => (digitsFrom false 0 cs).map fun n => (n : Int)
  | cs => (digitsFrom false 0 cs).map fun n => (n : Int)

/-- The integer that a string writes, blanks around it left out. -/
def toInt? (s : String) : Option Int :=
  signed (((s.toList.dropWhile isBlank).reverse.dropWhile isBlank).reverse)

end StyleCheck.Numeral
