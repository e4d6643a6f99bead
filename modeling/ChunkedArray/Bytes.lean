/-!
# ChunkedArray.Bytes

Byte strings: chunk contents, encoded values and caller buffers.

A byte string is a list of octets, which is what the laws of the region and
codec layers are stated over. Beside the list itself this module keeps the three
readings of bytes that those layers share: fixed-width pieces (`pieces`), 32-bit
words with the low octet first (`littleEndian`, `ofLittleEndian`), and the
hexadecimal text of a message (`hex`).
-/

namespace ChunkedArray

/-- A string of octets. -/
abbrev Bytes := List UInt8

namespace Bytes

/-! ### Fixed-width pieces -/

/-- The first `count` pieces of `width` bytes. -/
def takePieces (width : Nat) : Nat → Bytes → List Bytes
  | 0, _ => []
  | count + 1, bytes => bytes.take width :: takePieces width count (bytes.drop width)

/-- The bytes cut into pieces of `width`; a shorter rest at the end is left out,
and no piece has width zero. -/
def pieces (width : Nat) (bytes : Bytes) : List Bytes :=
  takePieces width (bytes.length / width) bytes

@[simp] theorem length_takePieces (width count : Nat) (bytes : Bytes) :
    (takePieces width count bytes).length = count := by
  induction count generalizing bytes with
  | zero => rfl
  | succ count ih => simp [takePieces, ih]

@[simp] theorem length_pieces (width : Nat) (bytes : Bytes) :
    (pieces width bytes).length = bytes.length / width := by
  simp [pieces]

/-! ### Words with the low octet first -/

/-- The lowest `count` octets of a number, lowest first. -/
def littleEndian : Nat → Nat → Bytes
  | 0, _ => []
  | count + 1, value => UInt8.ofNat value :: littleEndian count (value / 256)

/-- The number whose octets are given, lowest first. -/
def ofLittleEndian : Bytes → Nat
  | [] => 0
  | octet :: rest => octet.toNat + 256 * ofLittleEndian rest

@[simp] theorem length_littleEndian (count value : Nat) :
    (littleEndian count value).length = count := by
  induction count generalizing value with
  | zero => rfl
  | succ count ih => simp [littleEndian, ih]

/-! ### Hexadecimal text -/

/-- The two lower-case hexadecimal digits of an octet. -/
def octetDigits (octet : UInt8) : List Char :=
  [Nat.digitChar (octet.toNat / 16), Nat.digitChar (octet.toNat % 16)]

/-- The bytes in hexadecimal, two digits each, without separators. -/
def hex (bytes : Bytes) : String := String.ofList (bytes.flatMap octetDigits)

example : pieces 2 [1, 2, 3, 4, 5] = [[1, 2], [3, 4]] := by decide
example : littleEndian 4 258 = [2, 1, 0, 0] := by decide
example : hex [0, 171] = "00ab" := by decide

end Bytes

end ChunkedArray
