import ChunkedArray.Json.Value
import ChunkedArray.Text.Decimal

/-!
# ChunkedArray.Json.Number

The numbers of JSON text: digits, perhaps a fraction and perhaps an exponent. A
number is read only if a finite double-precision number is nearest to it. One that
is too large for that is an error of the text wherever it stands; one that is too
small is a zero.
-/

namespace ChunkedArray.Json

/-- A number as it is written, without its sign. -/
structure Numeral where
  /-- The digits before the point. -/
  whole : List Char
  /-- The digits behind the point; no digits if there is no point. -/
  decimals : List Char
  /-- The power of ten, if one is written. -/
  exponent : Option Int
  deriving DecidableEq, Repr

namespace Numeral

/-! ### Range -/

/-- The digits from the first one on that is not zero. -/
def significant (numeral : Numeral) : List Char :=
  (numeral.whole ++ numeral.decimals).dropWhile (· = '0')

/-- The number of digits that the significant ones put before the point. A number
that is not zero is below the power of ten with this exponent, and not below the
one before it. -/
def places (numeral : Numeral) : Int :=
  numeral.significant.length - numeral.decimals.length + numeral.exponent.getD 0

/-- The least number that is rounded to infinity. It lies half-way between the
largest double-precision number and the power of two behind it. -/
def limit : Nat := (1 <<< 54 - 1) <<< 970

/-- The number of digits of `limit`. -/
def limitPlaces : Nat := 309

/-- Is the number below the limit? Where both have the same number of digits before
the point, those digits decide, since the limit is whole. -/
def inRange (numeral : Numeral) : Bool :=
  let digits := numeral.significant
  if digits = [] ∨ numeral.places < limitPlaces then true
  else if limitPlaces < numeral.places then false
  else digitsValue ((digits ++ List.replicate limitPlaces '0').take limitPlaces) < limit

/-- The value of a number, with or without a minus sign in front. -/
def toJson (numeral : Numeral) (negative : Bool) : Json :=
  let value := digitsValue numeral.whole
  if numeral.decimals ≠ [] ∨ numeral.exponent.isSome ∨ negative ∧ value = 0 then .fractional
  else .integer (if negative then -value else value)

example : inRange ⟨"1".toList, "7976931348623158079".toList, some 308⟩ = true := by decide +kernel
example : inRange ⟨"1".toList, "797693134862315808".toList, some 308⟩ = false := by decide +kernel
example : inRange ⟨"0".toList, "00".toList, some 999⟩ = true := by decide +kernel

end Numeral

/-! ### Reading -/

/-- The digits at the front of a text, of which there has to be one. -/
def digits? (text : List Char) : Option (List Char × List Char) :=
  match text.takeWhile Char.isDigit with
  | [] => none
  | found => some (found, text.dropWhile Char.isDigit)

/-- The digits behind a point, if there is a point. -/
def decimals? : List Char → Option (List Char × List Char)
  | '.' :: rest => digits? rest
  | text => some ([], text)

/-- A whole number, which may have a sign. -/
def signed? : List Char → Option (Int × List Char)
  | '-' :: rest => (digits? rest).map fun found => (-digitsValue found.1, found.2)
  | '+' :: rest => (digits? rest).map fun found => (digitsValue found.1, found.2)
  | text => (digits? text).map fun found => (digitsValue found.1, found.2)

/-- The power of ten, if one is written. -/
def exponent? : List Char → Option (Option Int × List Char)
  | 'e' :: rest | 'E' :: rest => (signed? rest).map fun found => (some found.1, found.2)
  | text => some (none, text)

/-- The number at the front of a text, without its sign. No other digit may follow
a leading zero. -/
def numeral? (text : List Char) : Option (Numeral × List Char) := do
  let (whole, rest) ← digits? text
  if whole.head? = some '0' ∧ 1 < whole.length then none
  let (decimals, rest) ← decimals? rest
  let (exponent, rest) ← exponent? rest
  let numeral : Numeral := ⟨whole, decimals, exponent⟩
  if numeral.inRange then some (numeral, rest) else none

/-- The number at the front of a text. -/
def number? : List Char → Option (Json × List Char)
  | '-' :: rest => (numeral? rest).map fun found => (found.1.toJson true, found.2)
  | text => (numeral? text).map fun found => (found.1.toJson false, found.2)

end ChunkedArray.Json
