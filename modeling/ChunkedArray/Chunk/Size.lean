import ChunkedArray.Chunk.Basic
import ChunkedArray.Error

/-!
# ChunkedArray.Chunk.Size

How many elements a chunk has, and how many bytes they take.

These are products that are taken without a check, in 64 bits or, where the number of
elements is held against a limit, in 128 bits. The program stops where a partial
product leaves them.
-/

namespace ChunkedArray

namespace Chunk

/-- The number of elements of a chunk, counted in 64 bits. -/
def counted (chunk : Chunk) : Outcome Nat :=
  Outcome.ofProduct (Shape.countBelow UInt64.size chunk.shape)

/-- The size of so many elements of a chunk in bytes. -/
def sizeOf (chunk : Chunk) (count : Nat) : Outcome Nat :=
  Outcome.ofProduct (Shape.mulBelow UInt64.size count chunk.elementSize)

/-- The number of elements that the limit is held against, counted in 128 bits. -/
def guardedCount (chunk : Chunk) : Outcome Nat :=
  Outcome.ofProduct (Shape.countBelow (UInt64.size * UInt64.size) chunk.shape)

/-- The number of elements of a chunk, refused above a limit. -/
def checkedLength (chunk : Chunk) (limit : UInt64) : Outcome Nat :=
  if chunk.elementSize = 0 then .error (.invalidChunk chunk.key .emptyFill)
  else do
    let count ← chunk.guardedCount
    if limit.toNat < count then throw (.chunkTooLarge count limit) else return count

end Chunk

end ChunkedArray
