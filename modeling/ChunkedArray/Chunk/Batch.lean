import ChunkedArray.Chunk.Basic
import ChunkedArray.Selection.Rectangle
import ChunkedArray.Selection.ResultShape

/-!
# ChunkedArray.Chunk.Batch

Batches of requests. Every request of a batch is checked before the first one is
turned into slices, so a fault of a shape anywhere in the batch comes before a
fault of a rectangle.

The view of the buffer is taken without padding and with no axis dropped, the
view of the chunk with padding and without the dropped axes. The two have to keep
the same number of axes.
-/

namespace ChunkedArray

namespace ChunkRequest

/-- Checks that the two views of a request keep the same number of axes. -/
def checkViews (request : ChunkRequest) (dropped : DropAxes) : Except SelectionError Unit := do
  let out ← request.outSelection.resultShape request.chunk.shape [] false
  let chunk ← request.chunkSelection.resultShape request.chunk.shape dropped true
  if out.length ≠ chunk.length then throw (.collapsedDimension out chunk)

/-- The request with its selections turned into slices. -/
def toEntry (request : ChunkRequest) : Except SelectionError BatchEntry := do
  let rank := request.chunk.shape.length
  let outSlices ← (request.outSelection.expandEllipsis rank).toSlices
  let chunkSlices ← (request.chunkSelection.expandEllipsis rank).toSlices
  return { chunk := request.chunk, chunkSlices, outSlices }

end ChunkRequest

/-- The entries of a batch of requests. -/
def buildBatch (requests : List ChunkRequest) (dropped : DropAxes) :
    Except SelectionError (List BatchEntry) := do
  requests.forM fun request => request.checkViews dropped
  requests.mapM ChunkRequest.toEntry

/-- The chunks of a batch of requests for whole chunks, where the selections do
not matter. -/
def buildBasicBatch (requests : List ChunkRequest) : List Chunk :=
  requests.map ChunkRequest.chunk

end ChunkedArray
