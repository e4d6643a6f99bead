import ChunkedArray.Codec.Basic

/-!
# ChunkedArray.Codec.Tagged

A codec that puts one byte in front of the decoded bytes. It refuses chunks that
begin in a certain way, and answers for a part of a chunk, if at all, with the
same bytes each time. It serves for trying out what surrounds a codec.
-/

namespace ChunkedArray.Tagged

/-- The byte in front. -/
def tag : UInt8 := 0xEE

/-- The bytes that no encoded chunk begins with. -/
def refusedBeginning : Bytes := [0xDD, 0xDD]

/-- The decoded bytes behind the tag. -/
def encode (chunk : Chunk) (decoded : Bytes) : Outcome Bytes :=
  if refusedBeginning.isPrefixOf decoded then
    .error (.codec chunk.key (.refused refusedBeginning))
  else .ok (tag :: decoded)

/-- The bytes without the tag. -/
def decode (chunk : Chunk) (encoded : Bytes) : Outcome Bytes :=
  match encoded with
  | first :: decoded => if first = tag then .ok decoded else .error (.codec chunk.key .badTag)
  | [] => .error (.codec chunk.key .badTag)

/-- The codec whose answer for each part of a chunk is given. -/
def codec (part : Option Bytes) : Codec where
  encode := encode
  decode := decode
  partialDecode _ _ := pure part

theorem decode_encode {chunk : Chunk} {decoded encoded : Bytes}
    (h : encode chunk decoded = .ok encoded) : decode chunk encoded = .ok decoded := by
  unfold encode at h
  split at h
  · cases h
  · cases h; simp [decode]

end ChunkedArray.Tagged
