/-!
# ChunkedArray.Text.Decimal

Reading a 64-bit number from decimal text: one or more ASCII digits, with one
plus sign in front allowed, denoting a number below `2 ^ 64`. Leading zeros do
not matter; a minus sign, a blank or a digit of another script refuses the text.
-/

namespace ChunkedArray

/-- The number that some decimal digits denote. -/
def digitsValue (digits : List Char) : Nat :=
  digits.foldl (fun value digit => value * 10 + (digit.toNat - '0'.toNat)) 0

/-- The digits of a decimal text, without the plus sign that may stand first. -/
def unsigned : List Char → List Char
  | '+' :: digits => digits
  | digits => digits

/-- The 64-bit number that a text denotes, if it is one. -/
def readWord (text : List Char) : Option UInt64 :=
  let digits := unsigned text
  if digits ≠ [] ∧ digits.all Char.isDigit ∧ digitsValue digits < UInt64.size then
    some (digitsValue digits).toUInt64
  else none

example : readWord "+007".toList = some 7 := by decide +kernel
example : readWord "18446744073709551616".toList = none := by decide +kernel
example : readWord "+".toList = none := by decide +kernel

end ChunkedArray
