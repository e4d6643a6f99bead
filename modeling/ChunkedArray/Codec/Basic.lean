import ChunkedArray.Chunk.Basic
import ChunkedArray.Store.Job

/-!
# ChunkedArray.Codec.Basic

What a codec does for the chunks of an array. The decoded bytes of a chunk are
its elements in row-major order; the encoded bytes are what is stored.

A codec may know how to decode a part of a chunk without reading all of it. That
takes calls of a store, so it is a job; no answer means that the codec has no
such way and the whole chunk has to be decoded.
-/

namespace ChunkedArray

/-- A way of storing chunks. -/
structure Codec where
  encode : Chunk → Bytes → Outcome Bytes
  decode : Chunk → Bytes → Outcome Bytes
  /-- The packed bytes of a box of a chunk, if the codec can read it alone. -/
  partialDecode : Chunk → Box → Job (Option Bytes) := fun _ _ => pure none

end ChunkedArray
