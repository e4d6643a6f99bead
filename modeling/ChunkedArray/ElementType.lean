import ChunkedArray.Text.Decimal

/-!
# ChunkedArray.ElementType

The types that the elements of an array can have: their names, their sizes in
bytes, and the size of the numbers that make up one element, which matters where
the order of the bytes of a number is chosen.

Raw elements are plain bytes; the name `r24` stands for raw elements of 24 bits.
The elements of the types `string` and `binary` vary in size.
-/

namespace ChunkedArray

/-- The type of an element. -/
inductive ElementType
  | bool
  | int8
  | int16
  | int32
  | int64
  | uint8
  | uint16
  | uint32
  | uint64
  | float16
  | bfloat16
  | float32
  | float64
  | complex64
  | complex128
  /-- So many bytes without further structure. -/
  | raw (bytes : Nat)
  /-- Texts of any length. -/
  | string
  /-- Rows of bytes of any length. -/
  | binary
  deriving DecidableEq, Repr

namespace ElementType

/-- The types that have a name of their own. -/
def named : List (String × ElementType) :=
  [("bool", bool), ("int8", int8), ("int16", int16), ("int32", int32), ("int64", int64),
    ("uint8", uint8), ("uint16", uint16), ("uint32", uint32), ("uint64", uint64),
    ("float16", float16), ("bfloat16", bfloat16), ("float32", float32), ("float64", float64),
    ("complex64", complex64), ("complex128", complex128), ("string", string),
    ("binary", binary)]

/-- The raw type of a name: the letter `r` and a number of bits that makes up
whole bytes. -/
def rawOfName? (name : String) : Option ElementType :=
  match name.toList with
  | 'r' :: digits => do
    let bits ← readWord digits
    if bits.toNat % 8 = 0 then some (raw (bits.toNat / 8)) else none
  | _ => none

/-- The type of a name. -/
def ofName? (name : String) : Option ElementType :=
  (named.lookup name).or (rawOfName? name)

/-- The name of a type. -/
def name : ElementType → String
  | raw bytes => "r" ++ toString (8 * bytes)
  | type => ((named.find? fun entry => entry.2 = type).map Prod.fst).getD ""

/-- The size of an element in bytes, for the types that have one. -/
def size? : ElementType → Option Nat
  | bool | int8 | uint8 => some 1
  | int16 | uint16 | float16 | bfloat16 => some 2
  | int32 | uint32 | float32 => some 4
  | int64 | uint64 | float64 | complex64 => some 8
  | complex128 => some 16
  | raw bytes => some bytes
  | string | binary => none

/-- The size in bytes of the numbers that an element is made of. A complex
element is two numbers; a raw element is a row of bytes. -/
def numberSize : ElementType → Nat
  | int16 | uint16 | float16 | bfloat16 => 2
  | int32 | uint32 | float32 | complex64 => 4
  | int64 | uint64 | float64 | complex128 => 8
  | _ => 1

example : ofName? "r24" = some (raw 3) := by decide +kernel
example : ofName? "r7" = none := by decide +kernel
example : name complex64 = "complex64" := by decide

end ElementType

end ChunkedArray
