import ChunkedArray.Chunk.Size
import ChunkedArray.Region.Resolve

/-!
# ChunkedArray.Chunk.Plan

Planning a batch: every entry is resolved against its chunk and the buffer of
the caller before anything is read or written, so that a bad entry leaves nothing
half done.

The checks of one entry come in a fixed order: the size of the chunk, the size of
the buffer, the slices of the chunk, the slices of the buffer, and last that the
two regions have the same number of elements.
-/

namespace ChunkedArray

/-- The largest 64-bit number. -/
def largestWord : UInt64 := 18446744073709551615

/-- Checks that a buffer of `size` bytes holds an array of elements of `width`
bytes. -/
def checkBuffer (size : Nat) (shape : Shape) (width : Nat) : Outcome Unit :=
  let expected := Shape.checkedCount (shape ++ [width.toUInt64])
  if expected.map UInt64.toNat = some size then .ok ()
  else .error (.bufferSize shape (expected.getD largestWord) size)

/-- An entry of a batch with both of its regions resolved. -/
structure ChunkPlan where
  chunk : Chunk
  chunkBox : Box
  outBox : Box
  deriving DecidableEq, Repr

namespace BatchEntry

/-- The plan of an entry for a buffer of `size` bytes. -/
def plan (entry : BatchEntry) (size : Nat) (shape : Shape) (limit : UInt64) :
    Outcome ChunkPlan := do
  let _ ← entry.chunk.checkedLength limit
  checkBuffer size shape entry.chunk.elementSize
  let chunkBox ← Box.ofSlices entry.chunkSlices entry.chunk.shape
  let outBox ← Box.ofSlices entry.outSlices shape
  if chunkBox.wrappedCount = outBox.wrappedCount then
    return { chunk := entry.chunk, chunkBox, outBox }
  else throw (.regionSizeMismatch chunkBox.wrappedCount outBox.wrappedCount)

end BatchEntry

/-- The plans of a batch, or the fault of the first entry that has one. -/
def planBatch (batch : List BatchEntry) (size : Nat) (shape : Shape) (limit : UInt64) :
    Outcome (List ChunkPlan) :=
  batch.mapM fun entry => entry.plan size shape limit

end ChunkedArray
