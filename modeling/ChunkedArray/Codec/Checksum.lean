import ChunkedArray.Bytes

/-!
# ChunkedArray.Codec.Checksum

Cyclic redundancy checks of 32 bits, with the low bit first: the remainder begins
and ends inverted, and each bit of the data shifts it down by one place and
subtracts the generator where a one falls out.
-/

namespace ChunkedArray

/-- A generator polynomial, its bits in reversed order. -/
structure Checksum where
  generator : UInt32

namespace Checksum

/-- The check of compressed files. -/
def crc32 : Checksum := ⟨0xEDB88320⟩

/-- The check of Castagnoli. -/
def crc32c : Checksum := ⟨0x82F63B78⟩

/-- The remainder shifted by so many places. -/
def shift (check : Checksum) : Nat → UInt32 → UInt32
  | 0, remainder => remainder
  | count + 1, remainder =>
    let shifted := remainder >>> 1
    shift check count (if remainder &&& 1 = 1 then shifted ^^^ check.generator else shifted)

/-- The remainder after one more byte. -/
def absorb (check : Checksum) (remainder : UInt32) (octet : UInt8) : UInt32 :=
  check.shift 8 (remainder ^^^ octet.toUInt32)

/-- The check value of some bytes. -/
def ofBytes (check : Checksum) (bytes : Bytes) : UInt32 :=
  bytes.foldl check.absorb 0xFFFFFFFF ^^^ 0xFFFFFFFF

/-- The check value as four bytes, the low byte first. -/
def trailer (check : Checksum) (bytes : Bytes) : Bytes :=
  Bytes.littleEndian 4 (check.ofBytes bytes).toNat

@[simp] theorem length_trailer (check : Checksum) (bytes : Bytes) :
    (check.trailer bytes).length = 4 := by
  simp [trailer]

example : crc32.ofBytes ("123456789".toUTF8.toList) = 0xCBF43926 := by decide +kernel
example : crc32c.ofBytes ("123456789".toUTF8.toList) = 0xE3069283 := by decide +kernel

end Checksum

end ChunkedArray
