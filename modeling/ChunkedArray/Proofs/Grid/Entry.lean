import ChunkedArray.Proofs.Chunk.Plan
import ChunkedArray.Proofs.Grid.Content
import ChunkedArray.Proofs.Pipeline.Retrieval

/-!
# ChunkedArray.Proofs.Grid.Entry

The elements of one entry of a batch, on their way between the buffer and the chunk.

The number of elements of a region is held as a machine word. Where the region in the
chunk is not vacant and the size of the chunk is a machine word, too, both regions of a
plan have exactly that number (`ChunkPlan.Sound.elementCount_eq`). So the bytes that are
gathered for an entry are its elements in the buffer (`gather_elements`), and a region
that is scattered goes there element by element (`scatter_elements`).
-/

namespace ChunkedArray

variable {codec : Codec} {limit : UInt64} {storeEmpty : Bool} {entry : BatchEntry}
  {plan : ChunkPlan} {shape : Shape} {buffer data : Bytes} {size : Nat}
  {elements : Coordinate → Bytes} {cell after : Cell}

namespace ChunkPlan.Sound

/-- The size of an element is a machine word. -/
theorem elementSize_lt (hplan : plan.Sound size shape) (hsmall : plan.chunk.Small)
    (hvacant : plan.chunkBox.vacant = false) : plan.chunk.elementSize < UInt64.size := by
  have hpos : 0 < plan.chunk.shape.elementCount :=
    Nat.lt_of_lt_of_le (Box.elementCount_pos hvacant) (Box.elementCount_le hplan.chunkFits)
  exact Nat.lt_of_le_of_lt (Nat.le_mul_of_pos_left _ hpos) hsmall

/-- The buffer has exactly the elements of its shape. -/
theorem size_eq_mul (hplan : plan.Sound size shape) (hsmall : plan.chunk.Small)
    (hvacant : plan.chunkBox.vacant = false) :
    size = shape.elementCount * plan.chunk.elementSize := by
  rw [hplan.size_eq, toNat_toUInt64 (hplan.elementSize_lt hsmall hvacant)]

/-- The two regions have the same number of elements. -/
theorem elementCount_eq (hplan : plan.Sound size shape) (hsmall : plan.chunk.Small)
    (hvacant : plan.chunkBox.vacant = false) :
    plan.chunkBox.elementCount = plan.outBox.elementCount := by
  have hchunk : plan.chunkBox.elementCount < UInt64.size :=
    Nat.lt_of_le_of_lt (Box.elementCount_le hplan.chunkFits)
      (hsmall.elementCount_lt hplan.elementSize_pos)
  have hshape : shape.elementCount ≤ size := by
    rw [hplan.size_eq_mul hsmall hvacant]
    exact Nat.le_mul_of_pos_right _ hplan.elementSize_pos
  have hout : plan.outBox.elementCount < UInt64.size :=
    Nat.lt_of_le_of_lt (Nat.le_trans (Box.elementCount_le hplan.outFits) hshape) hplan.size_lt
  rw [← toNat_toUInt64 hchunk, ← toNat_toUInt64 hout]
  exact congrArg UInt64.toNat hplan.wrappedCount_eq

end ChunkPlan.Sound

/-! ### Out of the buffer -/

theorem outElements_eq (h : entry.PlannedAs shape plan) (buffer : Bytes) :
    entry.outElements shape buffer =
      (plan.outBox.indices shape).map (Bytes.element plan.chunk.elementSize · buffer) := by
  rw [BatchEntry.outElements, BatchEntry.outCoordinates, Box.indices, List.map_map,
    ← Box.coordinates_ofSlices h.outBox_eq, h.chunk_eq]
  rfl

theorem chunkCoordinates_eq (h : entry.PlannedAs shape plan) :
    entry.chunkCoordinates = plan.chunkBox.coordinates :=
  (Box.coordinates_ofSlices h.chunkBox_eq).symm

/-- What is gathered for an entry are its elements in the buffer. -/
theorem gather_elements (hentry : entry.PlannedAs shape plan)
    (hplan : plan.Sound buffer.length shape) (hsmall : plan.chunk.Small)
    (hvacant : plan.chunkBox.vacant = false) (h : plan.gather shape buffer = .ok data) :
    data.length = plan.chunkBox.elementCount * plan.chunk.elementSize ∧
      data.pieces plan.chunk.elementSize = entry.outElements shape buffer := by
  have hsize := hplan.size_eq_mul hsmall hvacant
  obtain rfl := Except.ok.inj ((Box.extract_eq hplan.outFits hsize hplan.size_lt).symm.trans h)
  constructor
  · rw [Box.length_extract hplan.outFits hsize hplan.size_lt h,
      hplan.elementCount_eq hsmall hvacant]
  · rw [List.flatMap_def, outElements_eq hentry]
    exact Bytes.pieces_flatten hplan.elementSize_pos
      (Box.length_of_mem_elements hplan.outFits hsize)

/-- **Storing an entry** puts its elements in the buffer at their coordinates. -/
theorem store_entry_shows (hentry : entry.PlannedAs shape plan)
    (hplan : plan.Sound buffer.length shape) (hsmall : entry.chunk.Small)
    (hcodec : codec.Faithful entry.chunk) (hgather : plan.gather shape buffer = .ok data)
    (hshows : Shows codec entry.chunk elements cell)
    (h : (plan.write codec limit storeEmpty data).run Cell.store cell = (.ok (), after)) :
    Shows codec entry.chunk
      (putAll (entry.chunkCoordinates.zip (entry.outElements shape buffer)) elements) after := by
  rw [← hentry.chunk_eq] at hsmall hcodec hshows ⊢
  have hwritten := write_shows hplan.chunkFits hplan.elementSize_pos hsmall hcodec hshows
    (fun hvacant => (gather_elements hentry hplan hsmall hvacant hgather).1) h
  rw [chunkCoordinates_eq hentry]
  cases hvacant : plan.chunkBox.vacant with
  | true =>
    -- the region has no coordinates, whatever was gathered for it
    rw [coordinates_of_vacant hvacant] at hwritten ⊢
    exact hwritten
  | false =>
    rw [← (gather_elements hentry hplan hsmall hvacant hgather).2]
    exact hwritten

/-! ### Whole chunks -/

section Whole

variable {chunk : Chunk} {decoded : Bytes}

theorem chunkCoordinates_ofChunk (chunk : Chunk) :
    (BatchEntry.ofChunk chunk).chunkCoordinates = (Box.whole chunk.shape).coordinates :=
  (Box.coordinates_whole chunk.shape).symm

/-- The elements of a buffer of the shape of a chunk are its pieces. -/
theorem outElements_ofChunk (hsize : 0 < chunk.elementSize)
    (hlength : decoded.length = chunk.shape.elementCount * chunk.elementSize) :
    (BatchEntry.ofChunk chunk).outElements chunk.shape decoded =
      decoded.pieces chunk.elementSize := by
  have hindices : (selectedCoordinates [] chunk.shape).map chunk.shape.linearIndex =
      List.range chunk.shape.elementCount := by
    rw [← Box.coordinates_whole]
    exact Box.indices_whole chunk.shape
  rw [Bytes.pieces_eq_takePieces hsize hlength, Bytes.takePieces_eq_elements, ← hindices,
    List.map_map]
  rfl

/-- Storing a whole chunk makes no calls but those that write it. -/
theorem storeChunkJob_callsOnly_of {σ : Type} {pipeline : Pipeline σ} {may : StoreCall → Prop}
    (h : (writeChunk pipeline.codec pipeline.config.storeEmptyChunks chunk decoded).CallsOnly may) :
    (pipeline.storeChunkJob chunk decoded).CallsOnly may := by
  rcases storeChunkJob_cases pipeline chunk decoded with ⟨error, hjob⟩ | ⟨-, -, hjob⟩
  · rw [hjob]
    trivial
  · rwa [hjob]

theorem storeChunkJob_callsOnly {σ : Type} (pipeline : Pipeline σ) (chunk : Chunk)
    (decoded : Bytes) :
    (pipeline.storeChunkJob chunk decoded).CallsOnly (·.key = chunk.key) :=
  storeChunkJob_callsOnly_of (writeChunk_callsOnly ..)

/-- **Storing a whole chunk** puts all of its elements at their coordinates. -/
theorem storeChunkJob_shows {σ : Type} {pipeline : Pipeline σ} (hsmall : chunk.Small)
    (hcodec : pipeline.codec.Faithful chunk) (hshows : Shows pipeline.codec chunk elements cell)
    (h : (pipeline.storeChunkJob chunk decoded).run Cell.store cell = (.ok (), after)) :
    Shows pipeline.codec chunk (putAll ((BatchEntry.ofChunk chunk).chunkCoordinates.zip
      ((BatchEntry.ofChunk chunk).outElements chunk.shape decoded)) elements) after := by
  rcases storeChunkJob_cases pipeline chunk decoded with ⟨error, hjob⟩ | ⟨hsize, hlength, hjob⟩
  · rw [hjob] at h
    cases (Prod.mk.inj h).1
  · rw [hjob] at h
    obtain ⟨existing, -, hlists⟩ := hshows
    rw [chunkCoordinates_ofChunk, outElements_ofChunk hsize hlength]
    exact writeChunk_shows hsize hcodec (hlists.update_whole hsize hsmall hlength) h

end Whole

/-! ### Into the buffer -/

theorem Chunk.Lists.length_of_holds {chunk : Chunk} {decoded : Bytes} {coordinate : Coordinate}
    (h : chunk.Lists elements decoded) (hcoordinate : chunk.shape.Holds coordinate) :
    (elements coordinate).length = chunk.elementSize := by
  rw [← h.element coordinate hcoordinate]
  refine Bytes.length_element ?_
  rw [h.length]
  exact Nat.mul_le_mul_right _ (Shape.linearIndex_lt hcoordinate)

/-- A region without elements leaves the buffer as it is. -/
theorem scatter_nil (hplan : plan.Sound size shape) (hvacant : plan.chunkBox.vacant) :
    plan.scatter shape [] buffer = .unchanged buffer := by
  have hpacked : plan.outBox.packedSize plan.chunk.elementSize = 0 := by
    have hcount : plan.chunkBox.wrappedCount = 0 := by
      show plan.chunkBox.elementCount.toUInt64 = 0
      rw [Box.elementCount_of_vacant hvacant]
      rfl
    rw [Box.packedSize, ← hplan.wrappedCount_eq, hcount, UInt64.zero_mul]
  exact Box.update_nil hplan.outFits hpacked

/-- **Retrieving an entry** puts the elements of the chunk at their places in the buffer. -/
theorem scatter_elements (hentry : entry.PlannedAs shape plan)
    (hplan : plan.Sound buffer.length shape) (hsmall : entry.chunk.Small) {grid : Grid}
    (hlengths : ∀ coordinate, entry.chunk.shape.Holds coordinate →
      (grid entry.chunk.key coordinate).length = entry.chunk.elementSize) :
    plan.scatter shape (plan.chunkBox.coordinates.flatMap (grid entry.chunk.key)) buffer =
      .unchanged (grid.readEntry shape buffer entry) := by
  have hread : grid.readEntry shape buffer entry = Bytes.putElements plan.chunk.elementSize
      ((plan.outBox.indices shape).zip (plan.chunkBox.coordinates.map (grid entry.chunk.key)))
      buffer := by
    rw [Grid.readEntry, chunkCoordinates_eq hentry, BatchEntry.outCoordinates,
      ← Box.coordinates_ofSlices hentry.outBox_eq, Box.indices, List.zip_map, hentry.chunk_eq]
    rfl
  rw [hread]
  rw [← hentry.chunk_eq] at hsmall
  cases hvacant : plan.chunkBox.vacant with
  | true =>
    rw [coordinates_of_vacant hvacant, List.map_nil, List.zip_nil_right, Bytes.putElements_nil]
    exact scatter_nil hplan hvacant
  | false =>
    have hparts : ∀ part ∈ plan.chunkBox.coordinates.map (grid entry.chunk.key),
        part.length = plan.chunk.elementSize := by
      intro part hpart
      obtain ⟨coordinate, hcoordinate, rfl⟩ := List.mem_map.mp hpart
      have hholds := Box.holds_of_mem_coordinates hplan.chunkFits hcoordinate
      rw [hentry.chunk_eq] at hholds ⊢
      exact hlengths coordinate hholds
    have hregion : (plan.chunkBox.coordinates.map (grid entry.chunk.key)).flatten.length =
        plan.outBox.elementCount * plan.chunk.elementSize := by
      rw [Bytes.length_flatten hparts, List.length_map, Box.length_coordinates,
        hplan.elementCount_eq hsmall hvacant]
    rw [List.flatMap_def, ChunkPlan.scatter, Box.update_eq hplan.elementSize_pos hplan.outFits
      (hplan.size_eq_mul hsmall hvacant) hplan.size_lt hregion,
      Bytes.pieces_flatten hplan.elementSize_pos hparts]

/-- A region of the grid for an entry, as it is read to be scattered. -/
def BatchEntry.ReadAs (entry : BatchEntry) (shape : Shape) (size : Nat) (grid : Grid)
    (region : ChunkPlan × Bytes) : Prop :=
  (entry.PlannedAs shape region.1 ∧ region.1.Sound size shape) ∧
    region.2 = region.1.chunkBox.coordinates.flatMap (grid entry.chunk.key)

/-- Scattering all regions copies the elements of one entry after another. -/
theorem scatterAll_elements {grid : Grid} {batch : List BatchEntry}
    {regions : List (ChunkPlan × Bytes)} (hbuffer : buffer.length = size)
    (hregions : List.Forall₂ (BatchEntry.ReadAs · shape size grid ·) batch regions)
    (hsmall : ∀ entry ∈ batch, entry.chunk.Small)
    (hlengths : ∀ entry ∈ batch, ∀ coordinate, entry.chunk.shape.Holds coordinate →
      (grid entry.chunk.key coordinate).length = entry.chunk.elementSize) :
    scatterAll shape regions buffer = .unchanged (batch.foldl (grid.readEntry shape) buffer) := by
  -- each entry finds a buffer of the same size, with the elements of the ones before it
  induction hregions generalizing buffer with
  | nil => rfl
  | @cons entry region batch regions hregion _ ih =>
    obtain ⟨⟨hplanned, hsound⟩, helements⟩ := hregion
    rw [← hbuffer] at hsound
    have hscatter : region.1.scatter shape region.2 buffer =
        .unchanged (grid.readEntry shape buffer entry) := by
      rw [helements]
      exact scatter_elements hplanned hsound (hsmall entry (by simp)) (hlengths entry (by simp))
    have hlength := region.1.length_scatter shape region.2 buffer
    rw [hscatter] at hlength
    rw [scatterAll_cons_ok (by rw [hscatter]; rfl), hscatter]
    exact ih (hlength.trans hbuffer) (fun other hother => hsmall other (by simp [hother]))
      fun other hother => hlengths other (by simp [hother])

end ChunkedArray
