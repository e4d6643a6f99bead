import ChunkedArray.Bytes
import ChunkedArray.Selection.Basic

/-!
# ChunkedArray.Chunk.Basic

Chunks: the pieces in which an array is stored, each under a key of its own.

A `Chunk` says where a chunk is stored and how its elements are laid out; the
size of an element is the size of its fill value. A `ChunkRequest` asks for a
part of a chunk by two index expressions, one for the chunk and one for the
buffer of the caller; a `BatchEntry` holds the slices that they come down to.
-/

namespace ChunkedArray

/-- One stored chunk. -/
structure Chunk where
  /-- The key of the stored value. -/
  key : String
  shape : Shape
  /-- The name of the type of its elements. -/
  elementType : String
  /-- The bytes of an element of a chunk that was never stored. -/
  fill : Bytes
  deriving DecidableEq, Repr

namespace Chunk

/-- The size of an element in bytes. -/
def elementSize (chunk : Chunk) : Nat := chunk.fill.length

/-- The number of elements, where it is a 64-bit number. -/
def elementCount? (chunk : Chunk) : Option UInt64 := Shape.checkedCount chunk.shape

/-- The bytes of so many elements of a chunk that was never stored. -/
def filled (chunk : Chunk) (count : Nat) : Bytes := (List.replicate count chunk.fill).flatten

/-- Does every element of some decoded bytes hold the fill value? -/
def holdsOnlyFill (chunk : Chunk) (bytes : Bytes) : Bool :=
  (Bytes.pieces chunk.elementSize bytes).all (· == chunk.fill)

end Chunk

/-- A request for a part of a chunk. -/
structure ChunkRequest where
  chunk : Chunk
  /-- What is selected of the chunk. -/
  chunkSelection : Selection
  /-- What is selected of the buffer of the caller. -/
  outSelection : Selection
  deriving DecidableEq, Repr

/-- A request whose selections are slices. -/
structure BatchEntry where
  chunk : Chunk
  chunkSlices : List Slice
  outSlices : List Slice
  deriving DecidableEq, Repr

end ChunkedArray
