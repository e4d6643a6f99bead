import ChunkedArray.Bytes
import ChunkedArray.Deflate.Damage

/-!
# ChunkedArray.Deflate.Bits

Bytes as a stream of bits, the low bit of each byte first. A stream that began
as whole bytes knows how far it is inside a byte by its length alone, so skipping
to the next byte needs no further state.
-/

namespace ChunkedArray.Deflate

/-- A stream of bits. -/
abbrev Bits := List Bool

namespace Bits

/-- The lowest bits of a number, lowest first. -/
def ofNat : Nat → Nat → Bits
  | 0, _ => []
  | count + 1, value => (value % 2 == 1) :: ofNat count (value / 2)

/-- The bits of some bytes. -/
def ofBytes (bytes : Bytes) : Bits := bytes.flatMap fun octet => ofNat 8 octet.toNat

/-- The number that the next bits make up, lowest first, and the bits behind. -/
def read : Nat → Bits → Except Damage (Nat × Bits)
  | 0, bits => .ok (0, bits)
  | _ + 1, [] => .error .endOfBlocks
  | count + 1, bit :: bits => do
    let (value, rest) ← read count bits
    return (bit.toNat + 2 * value, rest)

/-- So many whole bytes, and the bits behind them. -/
def readBytes : Nat → Bits → Except Damage (Bytes × Bits)
  | 0, bits => .ok ([], bits)
  | count + 1, bits => do
    let (octet, rest) ← read 8 bits
    let (octets, rest) ← readBytes count rest
    return (UInt8.ofNat octet :: octets, rest)

/-- The bits from the next whole byte on. -/
def align (bits : Bits) : Bits := bits.drop (bits.length % 8)

end Bits

example : Bits.ofBytes [5] = [true, false, true, false, false, false, false, false] := by decide
example : Bits.read 3 [true, false, true, true] = .ok (5, [true]) := rfl

end ChunkedArray.Deflate
