/-! # Decimal numerals

Numerals are non-empty runs of the digits `0` to `9`. Leading zeros are allowed, signs are not.
-/

namespace RmlAlgebra.Text

/-- The number that a run of digits denotes, most significant digit first. -/
def decimalValue (digits : List Char) : Nat :=
  digits.foldl (fun value c => 10 * value + (c.toNat - '0'.toNat)) 0

def isNumeral (text : List Char) : Bool :=
  !text.isEmpty && text.all Char.isDigit

/-- The number that a numeral denotes, unless it reaches the given bound. -/
def decimalBelow? (bound : Nat) (text : List Char) : Option Nat :=
  if isNumeral text && decimalValue text < bound then some (decimalValue text) else none

end RmlAlgebra.Text
