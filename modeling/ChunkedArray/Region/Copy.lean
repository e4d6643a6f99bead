import ChunkedArray.Error
import ChunkedArray.Region.Runs

/-!
# ChunkedArray.Region.Copy

Copying a region between the row-major bytes of an array and the packed bytes of
the region alone. Both directions go run by run.

Extracting is all or nothing. Updating changes a buffer that its caller owns, so
its answer is an `Update`: the buffer as it is afterwards, together with how the
update ended. A packed region of the wrong size changes nothing.
-/

namespace ChunkedArray

/-- A buffer after an operation on it, and how the operation ended. -/
structure Update where
  buffer : Bytes
  outcome : Outcome Unit

namespace Update

/-- The buffer is as it was, and all went well. -/
def unchanged (buffer : Bytes) : Update := ⟨buffer, .ok ()⟩

/-- The buffer is as it was, and the operation failed. -/
def failed (buffer : Bytes) (error : AccessError) : Update := ⟨buffer, .error error⟩

end Update

namespace Bytes

/-- The bytes with a piece written over them from an offset. -/
def overwrite (bytes : Bytes) (offset : Nat) (piece : Bytes) : Bytes :=
  bytes.take offset ++ piece ++ bytes.drop (offset + piece.length)

theorem length_overwrite {bytes piece : Bytes} {offset : Nat}
    (h : offset + piece.length ≤ bytes.length) :
    (overwrite bytes offset piece).length = bytes.length := by
  simp [overwrite, Nat.min_eq_left (Nat.le_trans (Nat.le_add_right ..) h)]
  omega

end Bytes

namespace Box

/-- The bytes of the elements of a box, packed, from the bytes of an array. -/
def extract (box : Box) (shape : Shape) (width : Nat) (bytes : Bytes) : Outcome Bytes :=
  if box.vacant then .ok []
  else if !box.fits shape then .error (.region (.incompatible box shape))
  else match ByteRange.extract bytes (box.byteRanges shape width) with
  | .ok parts => .ok parts.flatten
  | .error error => .error (.region (.range error))

/-- Writes pieces over a buffer, each at the place of its element, up to the
first that would pass the end. -/
def writePieces (width : Nat) : List (Bytes × Nat) → Bytes → Update
  | [], buffer => .unchanged buffer
  | (piece, start) :: rest, buffer =>
    let offset := (start * width).toUInt64
    if offset.toNat + piece.length ≤ buffer.length then
      writePieces width rest (buffer.overwrite offset.toNat piece)
    else .failed buffer (.region (.pastEnd offset))

/-- The number of bytes of a packed region, in 64-bit arithmetic. -/
def packedSize (box : Box) (width : Nat) : UInt64 := box.wrappedCount * width.toUInt64

/-- Writes the packed bytes of a region into the bytes of an array. Their number is a
machine word, as the size that it is held against. -/
def update (box : Box) (shape : Shape) (width : Nat) (data buffer : Bytes) : Update :=
  let expected := box.packedSize width
  if data.length.toUInt64 ≠ expected then
    .failed buffer (.bufferSize box.lengths expected data.length)
  else if box.vacant then .unchanged buffer
  else if !box.fits shape then .failed buffer (.region (.incompatible box shape))
  else
    let runs := box.runs shape
    let size := (runs.length * width).toUInt64.toNat
    writePieces width ((data.pieces size).zip runs.starts) buffer

end Box

example : Box.extract [⟨1, 2⟩, ⟨0, 1⟩] [3, 2] 1 [0, 1, 2, 3, 4, 5] = .ok [2, 4] := rfl
example : Box.update [⟨1, 2⟩, ⟨0, 1⟩] [3, 2] 1 [8, 9] [0, 1, 2, 3, 4, 5]
    = .unchanged [0, 1, 8, 3, 9, 5] := rfl

end ChunkedArray
