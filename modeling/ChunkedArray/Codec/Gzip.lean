import ChunkedArray.Codec.Checksum
import ChunkedArray.Deflate.Inflate

/-!
# ChunkedArray.Codec.Gzip

Compressed files: a header, deflated data, and behind it the check value and the
size of the data. The header may carry extra data, a name, a comment and a check
of its own. What follows the first file is ignored.
-/

namespace ChunkedArray.Gzip

/-- The flags of a header. -/
structure Flags where
  octet : UInt8

namespace Flags

/-- Is a check value of the header there? -/
def hasCheck (flags : Flags) : Bool := flags.octet &&& 2 ≠ 0

/-- Is extra data there? -/
def hasExtra (flags : Flags) : Bool := flags.octet &&& 4 ≠ 0

/-- Is a name there? -/
def hasName (flags : Flags) : Bool := flags.octet &&& 8 ≠ 0

/-- Is a comment there? -/
def hasComment (flags : Flags) : Bool := flags.octet &&& 16 ≠ 0

/-- Is a flag set that stands for nothing? -/
def hasReserved (flags : Flags) : Bool := flags.octet &&& 0xE0 ≠ 0

end Flags

/-- The bytes behind so many bytes. -/
def skip (count : Nat) (bytes : Bytes) : Except Damage Bytes :=
  if count ≤ bytes.length then .ok (bytes.drop count) else .error .endOfFile

/-- The bytes behind some extra data, which begins with its size. -/
def skipExtra (bytes : Bytes) : Except Damage Bytes := do
  let rest ← skip 2 bytes
  skip (Bytes.ofLittleEndian (bytes.take 2)) rest

/-- The most bytes of a text in a header. -/
def longestText : Nat := 65535

/-- The bytes behind a text, which ends with a zero and has at most so many bytes
before it. -/
def skipText : Nat → Bytes → Except Damage Bytes
  | _, [] => .error .endOfFile
  | bound, octet :: rest =>
    if octet = 0 then .ok rest
    else match bound with
      | 0 => .error .longText
      | bound + 1 => skipText bound rest

/-- The bytes behind the check value of a header of so many bytes. -/
def skipCheck (header bytes : Bytes) : Except Damage Bytes := do
  let rest ← skip 2 bytes
  let check := (Checksum.crc32.ofBytes header).toNat % UInt16.size
  if Bytes.ofLittleEndian (bytes.take 2) = check then return rest else throw .mismatch

/-- The flags at the front of a header, if it is one. -/
def flags? : Bytes → Except Damage Flags
  | 0x1F :: 0x8B :: 8 :: octet :: _ =>
    let flags : Flags := ⟨octet⟩
    if flags.hasReserved then .error .badHeader else .ok flags
  | _ => .error .badHeader

/-- The number of bytes that every header begins with. -/
def headerSize : Nat := 10

/-- The bytes behind the header. -/
def skipHeader (bytes : Bytes) : Except Damage Bytes := do
  let rest ← skip headerSize bytes
  let flags ← flags? bytes
  let rest ← if flags.hasExtra then skipExtra rest else pure rest
  let rest ← if flags.hasName then skipText longestText rest else pure rest
  let rest ← if flags.hasComment then skipText longestText rest else pure rest
  if flags.hasCheck then skipCheck (bytes.take (bytes.length - rest.length)) rest else return rest

/-- The check value and the size of some data, as they stand behind it. -/
def trailer (data : Bytes) : Bytes :=
  Checksum.crc32.trailer data ++ Bytes.littleEndian 4 data.length

/-- The number of bytes behind the data. -/
def trailerSize : Nat := 8

/-- The data of a compressed file. -/
def decompress (bytes : Bytes) : Except Damage Bytes := do
  let body ← skipHeader bytes
  let (data, rest) ← Deflate.inflate body
  let _ ← skip trailerSize rest
  if rest.take trailerSize = trailer data then return data else throw .mismatch

/-- The header of a file without name and time. -/
def header : Bytes := [0x1F, 0x8B, 8, 0, 0, 0, 0, 0, 0, 0xFF]

/-- A file that holds some data. -/
def compress (data : Bytes) : Bytes := header ++ Deflate.deflateStored data ++ trailer data

example : (decompress (compress [1, 2, 3])).toOption = some [1, 2, 3] := by decide +kernel

end ChunkedArray.Gzip
