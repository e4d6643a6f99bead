import ChunkedArray.Chunk.Batch
import ChunkedArray.Codec.Tagged
import ChunkedArray.Pipeline.Basic
import ChunkedArray.Proofs.Store.Job
import ChunkedArray.Region.Coordinates
import ChunkedArray.Store.Table
import ChunkedArray.Proofs.Store.Cell
import ChunkedArray.Proofs.Pipeline.Crew
import ChunkedArray.Proofs.Pipeline.Collect
import ChunkedArray.Proofs.Pipeline.Division
import ChunkedArray.Proofs.Bytes
import ChunkedArray.Proofs.Region.Copy
import ChunkedArray.Proofs.Region.Laws
import ChunkedArray.Proofs.Outcome
import ChunkedArray.Proofs.Region.Resolve
import ChunkedArray.Proofs.Chunk.Plan
import ChunkedArray.Proofs.Pipeline.Access
import ChunkedArray.Proofs.Pipeline.Retrieval
import ChunkedArray.Proofs.Pipeline.Sequence
import ChunkedArray.Proofs.Pipeline.Order
import ChunkedArray.Proofs.Pipeline.Failure
import ChunkedArray.Proofs.Chunk.Fault
import ChunkedArray.Proofs.Pipeline.Kind
import ChunkedArray.Proofs.Pipeline.Refusal
import ChunkedArray.Proofs.Selection.Slice
import ChunkedArray.Proofs.Selection.Stretch
import ChunkedArray.Proofs.Selection.Walk
import ChunkedArray.Proofs.Selection.Ellipsis
import ChunkedArray.Proofs.Selection.Differences
import ChunkedArray.Proofs.Selection.Run
import ChunkedArray.Proofs.Selection.Rectangle
import ChunkedArray.Proofs.Selection.Broadcast
import ChunkedArray.Proofs.Selection.Axes
import ChunkedArray.Proofs.Selection.Denotation
import ChunkedArray.Proofs.Selection.HostShape
import ChunkedArray.Proofs.Selection.FullSlice
import ChunkedArray.Proofs.Selection.Rank
import ChunkedArray.Proofs.Selection.CommonShape
import ChunkedArray.Proofs.Selection.Overrun
import ChunkedArray.Proofs.Chunk.Batch
import ChunkedArray.Proofs.Chunk.Views
import ChunkedArray.Proofs.Chunk.Precedence
import ChunkedArray.Proofs.Chunk.UnitSteps
import ChunkedArray.Proofs.Grid.Basic
import ChunkedArray.Proofs.Grid.Content
import ChunkedArray.Proofs.Grid.Entry
import ChunkedArray.Proofs.Grid.Refinement
import ChunkedArray.Proofs.Pipeline.Keys
import ChunkedArray.Proofs.Codec.ByteOrder
import ChunkedArray.Proofs.Store.Parts
import ChunkedArray.Proofs.Codec.Opened
import ChunkedArray.Proofs.Codec.Partial
import ChunkedArray.Proofs.Deflate.Stored
import ChunkedArray.Proofs.Codec.RoundTrip
import ChunkedArray.Proofs.Pipeline.ReadFailure
import ChunkedArray.Proofs.Pipeline.Moments
import ChunkedArray.Proofs.Pipeline.Sparse
import ChunkedArray.Proofs.Store.Files
import ChunkedArray.Proofs.Pipeline.Limit
import ChunkedArray.Proofs.Pipeline.Fit
import ChunkedArray.Proofs.Pipeline.Steady
import ChunkedArray.Proofs.Store.Backend
import ChunkedArray.Proofs.Pipeline.Whole
import ChunkedArray.Proofs.Pipeline.Footprint
import ChunkedArray.Proofs.Selection.Arrangement
import ChunkedArray.Proofs.Chunk.Count
import ChunkedArray.Proofs.Text.Decimal
import ChunkedArray.Proofs.Config.Environment
import ChunkedArray.Proofs.Region.Elementwise
import ChunkedArray.Proofs.Pipeline.Turns
import ChunkedArray.Proofs.Pipeline.Progress
import ChunkedArray.Proofs.Pipeline.Completion
