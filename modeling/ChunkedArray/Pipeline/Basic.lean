import ChunkedArray.Codec.Metadata
import ChunkedArray.Pipeline.Access
import ChunkedArray.Pipeline.Dispatch
import ChunkedArray.Store.Router

/-!
# ChunkedArray.Pipeline.Basic

Pipelines: the movement of chunks between a store and buffers of the caller.

Every operation takes the store in some state and leaves it in another one.
Operations on many chunks also take a schedule for their jobs. A batch is planned
before the store is touched; on the way out all regions are cut from the buffer
before the first chunk is written, and on the way in no byte of the buffer changes
before every region has been read.
-/

namespace ChunkedArray

/-- A store, a codec and the settings to use them by. -/
structure Pipeline (σ : Type) where
  store : Store σ
  codec : Codec
  config : Config

/-- The pipeline over a router with the codec chain that a text describes. -/
def Pipeline.ofCodecText (text : String) (config : Config) : Outcome (Pipeline Router) := do
  let chain ← CodecChain.ofText text config
  return { store := Router.store, codec := chain.codec, config }

namespace Pipeline

variable {σ : Type} (pipeline : Pipeline σ)

/-- The largest number of elements of a chunk. -/
def limit : UInt64 := pipeline.config.maxChunkElements

/-! ### Whole chunks -/

/-- Reads a whole chunk. -/
def retrieveChunk (chunk : Chunk) (state : σ) : Outcome Bytes × σ :=
  (readChunk pipeline.codec pipeline.limit chunk).run pipeline.store state

/-- The job that writes a whole chunk of the right size. -/
def storeChunkJob (chunk : Chunk) (decoded : Bytes) : Job Unit := do
  let count ← Job.ofOutcome (chunk.checkedLength pipeline.limit)
  let expected ← Job.ofOutcome (chunk.sizeOf count)
  if decoded.length ≠ expected then
    .fail (.bufferSize chunk.shape expected.toUInt64 decoded.length)
  else writeChunk pipeline.codec pipeline.config.storeEmptyChunks chunk decoded

/-- Writes a whole chunk. -/
def storeChunk (chunk : Chunk) (decoded : Bytes) (state : σ) : Outcome Unit × σ :=
  (pipeline.storeChunkJob chunk decoded).run pipeline.store state

/-- Reads some whole chunks. -/
def retrieveWholeChunks (rules : Rules) (schedule : Schedule) (chunks : List Chunk)
    (state : σ) : Outcome (List Bytes) × σ :=
  dispatch rules pipeline.store schedule
    (chunks.map (readChunk pipeline.codec pipeline.limit)) state

/-! ### Batches -/

/-- The plans of a batch for a buffer. -/
def plan (batch : List BatchEntry) (shape : Shape) (buffer : Bytes) : Outcome (List ChunkPlan) :=
  planBatch batch buffer.length shape pipeline.limit

/-- Reads the regions of some plans, packed. -/
def readRegions (rules : Rules) (schedule : Schedule) (plans : List ChunkPlan) (state : σ) :
    Outcome (List Bytes) × σ :=
  dispatch rules pipeline.store schedule
    (plans.map (ChunkPlan.read pipeline.codec pipeline.limit)) state

/-- The job that writes the region of a plan. -/
def writeJob (entry : ChunkPlan × Bytes) : Job Unit :=
  entry.1.write pipeline.codec pipeline.limit pipeline.config.storeEmptyChunks entry.2

/-- Writes the regions of some plans. -/
def writeRegions (rules : Rules) (schedule : Schedule) (regions : List (ChunkPlan × Bytes))
    (state : σ) : Outcome Unit × σ :=
  let (outcome, state) :=
    dispatch rules pipeline.store schedule (regions.map pipeline.writeJob) state
  (outcome.map fun _ => (), state)

/-- Reads the regions of a batch into a buffer. -/
def retrieveChunks (rules : Rules) (schedule : Schedule) (batch : List BatchEntry)
    (shape : Shape) (buffer : Bytes) (state : σ) : Update × σ :=
  match pipeline.plan batch shape buffer with
  | .error error => (.failed buffer error, state)
  | .ok plans =>
    match pipeline.readRegions rules schedule plans state with
    | (.error error, state) => (.failed buffer error, state)
    | (.ok regions, state) => (scatterAll shape (plans.zip regions) buffer, state)

/-- The plans of a batch, each with its region of a buffer. -/
def prepare (batch : List BatchEntry) (shape : Shape) (buffer : Bytes) :
    Outcome (List (ChunkPlan × Bytes)) := do
  let plans ← pipeline.plan batch shape buffer
  let regions ← gatherAll plans shape buffer
  return plans.zip regions

/-- Writes the regions of a batch from a buffer. -/
def storeChunks (rules : Rules) (schedule : Schedule) (batch : List BatchEntry)
    (shape : Shape) (buffer : Bytes) (state : σ) : Outcome Unit × σ :=
  match pipeline.prepare batch shape buffer with
  | .error error => (.error error, state)
  | .ok regions => pipeline.writeRegions rules schedule regions state

end Pipeline

end ChunkedArray
