import ChunkedArray.Pipeline.Basic
import ChunkedArray.Proofs.Bytes
import ChunkedArray.Proofs.Region.Resolve
import Mathlib.Logic.Function.Basic

/-!
# ChunkedArray.Proofs.Grid.Basic

Arrays as they look from outside: an element for every key and coordinate.

A `Grid` has no store, no codec and no chunks that are absent. Storing puts elements at
coordinates one by one, retrieving copies them out one by one; both go through the
regions of an entry in row-major order. `Pipeline.performAll` runs a list of requests on
a pipeline and `Grid.performAll` runs it on a grid, for comparing the two.
-/

namespace ChunkedArray

/-- A chunk for every key, each of a size in bytes that is a machine word. -/
structure Layout where
  chunk : String → Chunk
  key_chunk : ∀ key, (chunk key).key = key
  small : ∀ key, (chunk key).shape.elementCount * (chunk key).elementSize < UInt64.size

/-! ### Elements of an entry -/

namespace BatchEntry

/-- The coordinates in the chunk that an entry is about, in row-major order. -/
def chunkCoordinates (entry : BatchEntry) : List Coordinate :=
  selectedCoordinates entry.chunkSlices entry.chunk.shape

/-- The coordinates in the buffer that an entry is about, in row-major order. -/
def outCoordinates (entry : BatchEntry) (shape : Shape) : List Coordinate :=
  selectedCoordinates entry.outSlices shape

/-- The elements of the buffer that an entry is about, in row-major order. -/
def outElements (entry : BatchEntry) (shape : Shape) (buffer : Bytes) : List Bytes :=
  (entry.outCoordinates shape).map fun coordinate =>
    buffer.element entry.chunk.elementSize (shape.linearIndex coordinate)

/-- The entry for a whole chunk and a buffer of the shape of the chunk. -/
def ofChunk (chunk : Chunk) : BatchEntry := ⟨chunk, [], []⟩

end BatchEntry

/-! ### Grids -/

/-- The element at each coordinate under each key. -/
abbrev Grid := String → Coordinate → Bytes

/-- Elements with others put in the place of some of them, one after another. -/
def putAll (writes : List (Coordinate × Bytes)) (elements : Coordinate → Bytes) :
    Coordinate → Bytes :=
  writes.foldl (fun elements write => Function.update elements write.1 write.2) elements

@[simp] theorem putAll_nil (elements : Coordinate → Bytes) : putAll [] elements = elements := rfl

@[simp] theorem putAll_cons (write : Coordinate × Bytes) (writes : List (Coordinate × Bytes))
    (elements : Coordinate → Bytes) : putAll (write :: writes) elements =
      putAll writes (Function.update elements write.1 write.2) := rfl

namespace Grid

/-- The grid in which nothing was stored. -/
def initial (layout : Layout) : Grid := fun key _ => (layout.chunk key).fill

/-- The grid with the elements of one entry stored: the element at each place of the
region in the buffer goes to the same place of the region in the chunk. -/
def storeEntry (shape : Shape) (buffer : Bytes) (grid : Grid) (entry : BatchEntry) : Grid :=
  Function.update grid entry.chunk.key
    (putAll (entry.chunkCoordinates.zip (entry.outElements shape buffer)) (grid entry.chunk.key))

/-- The buffer with the elements of one entry copied to it. -/
def readEntry (shape : Shape) (grid : Grid) (buffer : Bytes) (entry : BatchEntry) : Bytes :=
  let copy (places : Coordinate × Coordinate) : Nat × Bytes :=
    (shape.linearIndex places.1, grid entry.chunk.key places.2)
  Bytes.putElements entry.chunk.elementSize
    (((entry.outCoordinates shape).zip entry.chunkCoordinates).map copy) buffer

/-- The elements of a chunk in row-major order. -/
def wholeChunk (grid : Grid) (chunk : Chunk) : Bytes :=
  (selectedCoordinates [] chunk.shape).flatMap (grid chunk.key)

end Grid

/-! ### Requests -/

/-- A request to a pipeline. -/
inductive Request
  | storeChunk (chunk : Chunk) (decoded : Bytes)
  | storeChunks (rules : Rules) (schedule : Schedule) (batch : List BatchEntry) (shape : Shape)
    (buffer : Bytes)
  | retrieveChunk (chunk : Chunk)
  | retrieveWholeChunks (rules : Rules) (schedule : Schedule) (chunks : List Chunk)
  | retrieveChunks (rules : Rules) (schedule : Schedule) (batch : List BatchEntry) (shape : Shape)
    (buffer : Bytes)

/-- The answer to a request. -/
inductive Reply
  | stored
  | chunk (bytes : Bytes)
  | chunks (parts : List Bytes)
  | buffer (bytes : Bytes)
  deriving DecidableEq

/-- The request takes each chunk as the layout has it, and stores no chunk twice. -/
def Request.Over (layout : Layout) : Request → Prop
  | storeChunk chunk _ | retrieveChunk chunk => chunk = layout.chunk chunk.key
  | storeChunks _ _ batch _ _ =>
    (∀ entry ∈ batch, entry.chunk = layout.chunk entry.chunk.key) ∧
      (batch.map fun entry => entry.chunk.key).Nodup
  | retrieveWholeChunks _ _ chunks => ∀ chunk ∈ chunks, chunk = layout.chunk chunk.key
  | retrieveChunks _ _ batch _ _ => ∀ entry ∈ batch, entry.chunk = layout.chunk entry.chunk.key

/-- The answer of a pipeline to a request, and the state that it leaves. -/
def Pipeline.perform {σ : Type} (pipeline : Pipeline σ) (request : Request) (state : σ) :
    Outcome Reply × σ :=
  match request with
  | .storeChunk chunk decoded =>
    let (outcome, state) := pipeline.storeChunk chunk decoded state
    (outcome.map fun _ => .stored, state)
  | .storeChunks rules schedule batch shape buffer =>
    let (outcome, state) := pipeline.storeChunks rules schedule batch shape buffer state
    (outcome.map fun _ => .stored, state)
  | .retrieveChunk chunk =>
    let (outcome, state) := pipeline.retrieveChunk chunk state
    (outcome.map .chunk, state)
  | .retrieveWholeChunks rules schedule chunks =>
    let (outcome, state) := pipeline.retrieveWholeChunks rules schedule chunks state
    (outcome.map .chunks, state)
  | .retrieveChunks rules schedule batch shape buffer =>
    let (update, state) := pipeline.retrieveChunks rules schedule batch shape buffer state
    (update.outcome.map fun _ => .buffer update.buffer, state)

/-- The answers of a pipeline to some requests up to the first one that fails, and the
state that they leave. -/
def Pipeline.performAll {σ : Type} (pipeline : Pipeline σ) :
    List Request → σ → Outcome (List Reply) × σ
  | [], state => (.ok [], state)
  | request :: requests, state =>
    match pipeline.perform request state with
    | (.error error, state) => (.error error, state)
    | (.ok reply, state) =>
      let (outcome, state) := pipeline.performAll requests state
      (outcome.map (reply :: ·), state)

namespace Grid

/-- The answer of a grid to a request, and the grid that it leaves. -/
def perform (grid : Grid) : Request → Reply × Grid
  | .storeChunk chunk decoded =>
    (.stored, grid.storeEntry chunk.shape decoded (.ofChunk chunk))
  | .storeChunks _ _ batch shape buffer => (.stored, batch.foldl (storeEntry shape buffer) grid)
  | .retrieveChunk chunk => (.chunk (grid.wholeChunk chunk), grid)
  | .retrieveWholeChunks _ _ chunks => (.chunks (chunks.map grid.wholeChunk), grid)
  | .retrieveChunks _ _ batch shape buffer =>
    (.buffer (batch.foldl (readEntry shape grid) buffer), grid)

/-- The answers of a grid to some requests. -/
def performAll : List Request → Grid → List Reply
  | [], _ => []
  | request :: requests, grid =>
    (grid.perform request).1 :: performAll requests (grid.perform request).2

end Grid

end ChunkedArray
