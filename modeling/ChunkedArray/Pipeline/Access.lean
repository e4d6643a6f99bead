import ChunkedArray.Chunk.Plan
import ChunkedArray.Codec.Basic
import ChunkedArray.Region.Copy

/-!
# ChunkedArray.Pipeline.Access

The work on one chunk: reading and writing it as a whole, and reading and writing
a region of it.

A chunk that was never stored reads as its fill value. A region is read by the
codec alone where the codec can do that, else cut from the whole chunk; it is
written by patching the chunk and storing it again. A chunk that holds nothing but
the fill value is removed instead of stored if the configuration asks for it.
-/

namespace ChunkedArray

/-- The decoded bytes, if they have the size of so many elements of the chunk. -/
def Chunk.checkSize (chunk : Chunk) (count : Nat) (fault : Nat → UInt64 → ChunkFault)
    (decoded : Bytes) : Outcome Bytes := do
  let expected ← chunk.sizeOf count
  if decoded.length = expected then return decoded
  else throw (.invalidChunk chunk.key (fault decoded.length expected.toUInt64))

/-- Reads a whole chunk. -/
def readChunk (codec : Codec) (limit : UInt64) (chunk : Chunk) : Job Bytes := do
  let count ← Job.ofOutcome (chunk.checkedLength limit)
  match ← Job.ofCall (.get chunk.key) with
  | none => return chunk.filled count
  | some encoded =>
    let decoded ← Job.ofOutcome (codec.decode chunk encoded)
    Job.ofOutcome (chunk.checkSize count .decodedSize decoded)

/-- Writes a whole chunk. -/
def writeChunk (codec : Codec) (storeEmpty : Bool) (chunk : Chunk) (decoded : Bytes) :
    Job Unit :=
  if !storeEmpty && chunk.holdsOnlyFill decoded then Job.ofCall (.erase chunk.key)
  else do
    let encoded ← Job.ofOutcome (codec.encode chunk decoded)
    Job.ofCall (.set chunk.key encoded)

namespace ChunkPlan

/-- Is the region in the chunk the whole chunk? -/
def coversChunk (plan : ChunkPlan) : Bool := plan.chunkBox.covers plan.chunk.shape

/-- Reads the region in the chunk, packed. -/
def read (codec : Codec) (limit : UInt64) (plan : ChunkPlan) : Job Bytes :=
  if plan.chunkBox.vacant then return []
  else if plan.coversChunk then readChunk codec limit plan.chunk
  else do
    let _ ← Job.ofOutcome (plan.chunk.checkedLength limit)
    match ← codec.partialDecode plan.chunk plan.chunkBox with
    | some decoded =>
      let count := plan.chunkBox.wrappedCount.toNat
      Job.ofOutcome (plan.chunk.checkSize count .partialSize decoded)
    | none =>
      let decoded ← readChunk codec limit plan.chunk
      Job.ofOutcome (plan.chunkBox.extract plan.chunk.shape plan.chunk.elementSize decoded)

/-- Writes the region in the chunk from its packed bytes. -/
def write (codec : Codec) (limit : UInt64) (storeEmpty : Bool) (plan : ChunkPlan)
    (data : Bytes) : Job Unit :=
  if plan.chunkBox.vacant then return ()
  else if plan.coversChunk then writeChunk codec storeEmpty plan.chunk data
  else do
    let existing ← readChunk codec limit plan.chunk
    let patched :=
      plan.chunkBox.update plan.chunk.shape plan.chunk.elementSize data existing
    Job.ofOutcome patched.outcome
    writeChunk codec storeEmpty plan.chunk patched.buffer

/-- The packed bytes of the region in the buffer of the caller. -/
def gather (plan : ChunkPlan) (shape : Shape) (buffer : Bytes) : Outcome Bytes :=
  plan.outBox.extract shape plan.chunk.elementSize buffer

/-- The buffer of the caller with the packed bytes of a region written to it. -/
def scatter (plan : ChunkPlan) (shape : Shape) (region buffer : Bytes) : Update :=
  plan.outBox.update shape plan.chunk.elementSize region buffer

end ChunkPlan

/-- The packed bytes of all regions in the buffer of the caller. -/
def gatherAll (plans : List ChunkPlan) (shape : Shape) (buffer : Bytes) : Outcome (List Bytes) :=
  plans.mapM fun plan => plan.gather shape buffer

/-- The buffer of the caller with the packed bytes of all regions written to it,
up to the first one that does not go. -/
def scatterAll (shape : Shape) : List (ChunkPlan × Bytes) → Bytes → Update
  | [], buffer => .unchanged buffer
  | (plan, region) :: rest, buffer =>
    match plan.scatter shape region buffer with
    | ⟨buffer, .ok ()⟩ => scatterAll shape rest buffer
    | failed => failed

end ChunkedArray
