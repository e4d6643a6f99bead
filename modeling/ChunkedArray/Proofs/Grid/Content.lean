import ChunkedArray.Proofs.Grid.Basic
import ChunkedArray.Proofs.Pipeline.Access
import ChunkedArray.Proofs.Store.Cell

/-!
# ChunkedArray.Proofs.Grid.Content

The elements of one chunk, as they are stored under its key.

`Shows` says which elements a cell holds: those of the bytes that it decodes to, or the
fill value everywhere if nothing is stored. Reading a region gives its elements
(`read_shows`), and writing one puts its elements in the place of others
(`write_shows`), through whichever of its paths the code takes.
-/

namespace ChunkedArray

variable {codec : Codec} {limit : UInt64} {storeEmpty : Bool} {chunk : Chunk}
  {elements : Coordinate → Bytes} {decoded : Bytes} {cell after : Cell}

/-- The decoded bytes of what is stored under the key of a chunk. -/
def Codec.content (codec : Codec) (chunk : Chunk) : Cell → Outcome Bytes
  | none => .ok (chunk.filled chunk.shape.elementCount)
  | some encoded => codec.decode chunk encoded

/-- The codec keeps the bytes of a chunk of the right size, and where it decodes a part of
the chunk alone, that part is what is cut from the whole of it. -/
structure Codec.Faithful (codec : Codec) (chunk : Chunk) : Prop where
  decode_encode : ∀ decoded encoded,
    decoded.length = chunk.shape.elementCount * chunk.elementSize →
    codec.encode chunk decoded = .ok encoded → codec.decode chunk encoded = .ok decoded
  partialDecode_eq : ∀ box cell part decoded, box.fits chunk.shape →
    ((codec.partialDecode chunk box).run Cell.store cell).1 = .ok (some part) →
    codec.content chunk cell = .ok decoded →
    box.extract chunk.shape chunk.elementSize decoded = .ok part

/-! ### Bytes as elements -/

/-- The bytes are the elements of a chunk in row-major order. -/
structure Chunk.Lists (chunk : Chunk) (elements : Coordinate → Bytes) (decoded : Bytes) : Prop where
  length : decoded.length = chunk.shape.elementCount * chunk.elementSize
  element : ∀ coordinate, chunk.shape.Holds coordinate →
    decoded.element chunk.elementSize (chunk.shape.linearIndex coordinate) = elements coordinate

namespace Chunk.Lists

theorem flatMap_indices (h : chunk.Lists elements decoded) {box : Box}
    (hfits : box.fits chunk.shape) :
    (box.indices chunk.shape).flatMap (Bytes.element chunk.elementSize · decoded) =
      box.coordinates.flatMap elements := by
  rw [Box.indices, List.flatMap_map]
  refine List.flatMap_congr ?_
  intro coordinate hcoordinate
  exact h.element coordinate (Box.holds_of_mem_coordinates hfits hcoordinate)

/-- What is cut from the bytes are the elements of the region. -/
theorem extract_eq (h : chunk.Lists elements decoded) (hsmall : decoded.length < UInt64.size)
    {box : Box} (hfits : box.fits chunk.shape) :
    box.extract chunk.shape chunk.elementSize decoded =
      .ok (box.coordinates.flatMap elements) := by
  rw [Box.extract_eq hfits h.length hsmall, h.flatMap_indices hfits]

theorem eq_flatMap (h : chunk.Lists elements decoded) :
    decoded = (Box.whole chunk.shape).coordinates.flatMap elements := by
  have hall := Bytes.take_drop_eq_elements chunk.elementSize 0 chunk.shape.elementCount decoded
  rw [Nat.zero_mul, List.drop_zero, ← h.length, List.take_length, ← List.range_eq_range',
    ← Box.indices_whole, h.flatMap_indices (Box.fits_whole _)] at hall
  exact hall

/-- A chunk of copies of the fill value. -/
theorem filled (chunk : Chunk) :
    chunk.Lists (fun _ => chunk.fill) (chunk.filled chunk.shape.elementCount) := by
  refine ⟨length_filled chunk _, ?_⟩
  intro coordinate hcoordinate
  have hlt := Shape.linearIndex_lt hcoordinate
  have hparts : ∀ part ∈ List.replicate chunk.shape.elementCount chunk.fill,
      part.length = chunk.elementSize := by
    intro part hpart
    rw [List.eq_of_mem_replicate hpart]
    rfl
  rw [Chunk.filled, Bytes.element_flatten hparts (by simpa using hlt), List.getElem_replicate]

/-- Putting some elements in the place of others. -/
theorem putElements (h : chunk.Lists elements decoded) {writes : List (Coordinate × Bytes)}
    (hwrites : ∀ write ∈ writes, chunk.shape.Holds write.1 ∧ write.2.length = chunk.elementSize) :
    chunk.Lists (putAll writes elements)
      (decoded.putElements chunk.elementSize
        (writes.map fun write => (chunk.shape.linearIndex write.1, write.2))) := by
  induction writes generalizing elements decoded with
  | nil => exact h
  | cons write writes ih =>
    obtain ⟨hcoordinate, hsize⟩ := hwrites write (by simp)
    have hplace : (chunk.shape.linearIndex write.1 + 1) * chunk.elementSize ≤ decoded.length := by
      rw [h.length]
      exact Nat.mul_le_mul_right _ (Shape.linearIndex_lt hcoordinate)
    have hstep : chunk.Lists (Function.update elements write.1 write.2) (decoded.overwrite
        (chunk.shape.linearIndex write.1 * chunk.elementSize) write.2) := by
      refine ⟨by rw [Bytes.length_overwrite_element hsize hplace, h.length], ?_⟩
      intro coordinate hother
      by_cases heq : coordinate = write.1
      · rw [heq, Bytes.element_overwrite_own hsize hplace, Function.update_self]
      · -- different coordinates have different places
        have hne : chunk.shape.linearIndex coordinate ≠ chunk.shape.linearIndex write.1 :=
          fun hsame => heq (Shape.linearIndex_injective hother hcoordinate hsame)
        rw [Bytes.element_overwrite_other hsize hplace hne, Function.update_of_ne heq,
          h.element coordinate hother]
    rw [putAll_cons, List.map_cons, Bytes.putElements_cons]
    exact ih hstep fun other hother => hwrites other (by simp [hother])

end Chunk.Lists

/-! ### Reading -/

/-- The cell holds the elements. -/
def Shows (codec : Codec) (chunk : Chunk) (elements : Coordinate → Bytes) (cell : Cell) : Prop :=
  ∃ decoded, codec.content chunk cell = .ok decoded ∧ chunk.Lists elements decoded

/-- The size of the chunk in bytes is a machine word. -/
def Chunk.Small (chunk : Chunk) : Prop :=
  chunk.shape.elementCount * chunk.elementSize < UInt64.size

theorem Chunk.Small.elementCount_lt (hsmall : chunk.Small) (hsize : 0 < chunk.elementSize) :
    chunk.shape.elementCount < UInt64.size :=
  Nat.lt_of_le_of_lt (Nat.le_mul_of_pos_right _ hsize) hsmall

/-- So is the size of a part of it. -/
theorem Chunk.Small.part_lt (hsmall : chunk.Small) {box : Box} (hfits : box.fits chunk.shape) :
    box.elementCount * chunk.elementSize < UInt64.size :=
  Nat.lt_of_le_of_lt (Nat.mul_le_mul_right _ (Box.elementCount_le hfits)) hsmall

/-- The decoded bytes that are read from a store are those of what is stored. -/
theorem readChunk_eq_ok {σ : Type} {store : Store σ} {state final : σ}
    (h : (readChunk codec limit chunk).run store state = (.ok decoded, final)) :
    0 < chunk.elementSize ∧ ∃ stored, (store.answer (.get chunk.key) state).1 = .ok stored ∧
      codec.content chunk stored = .ok decoded := by
  obtain ⟨count, start, hcount, h⟩ := Job.run_bind_eq_ok h
  obtain ⟨hok, rfl⟩ := Prod.mk.inj hcount
  obtain ⟨hsize, -, rfl⟩ := Chunk.checkedLength_eq_ok hok
  obtain ⟨stored, between, hget, h⟩ := Job.run_bind_eq_ok h
  refine ⟨hsize, stored, congrArg Prod.fst hget, ?_⟩
  cases stored with
  | none => exact (Prod.mk.inj h).1
  | some encoded =>
    obtain ⟨bytes, _, hdecode, h⟩ := Job.run_bind_eq_ok h
    obtain ⟨rfl, -⟩ := Chunk.checkSize_eq_ok (Prod.mk.inj h).1
    exact (Prod.mk.inj hdecode).1

/-- The decoded bytes that are read are those of the cell. -/
theorem readChunk_content
    (h : (readChunk codec limit chunk).run Cell.store cell = (.ok decoded, after)) :
    0 < chunk.elementSize ∧ codec.content chunk cell = .ok decoded ∧ after = cell := by
  obtain ⟨hsize, stored, hget, hcontent⟩ := readChunk_eq_ok h
  obtain rfl : cell = stored := Except.ok.inj hget
  have hsame := Cell.run_readsOnly (readChunk_readsOnly codec limit chunk) cell
  rw [h] at hsame
  exact ⟨hsize, hcontent, hsame⟩

theorem Shows.lists (h : Shows codec chunk elements cell)
    (hcontent : codec.content chunk cell = .ok decoded) : chunk.Lists elements decoded := by
  obtain ⟨bytes, hbytes, hlists⟩ := h
  obtain rfl := Except.ok.inj (hbytes.symm.trans hcontent)
  exact hlists

/-- A whole chunk is read as its elements. -/
theorem readChunk_shows (hshows : Shows codec chunk elements cell)
    (h : (readChunk codec limit chunk).run Cell.store cell = (.ok decoded, after)) :
    0 < chunk.elementSize ∧ chunk.Lists elements decoded ∧ after = cell := by
  obtain ⟨hsize, hcontent, hafter⟩ := readChunk_content h
  exact ⟨hsize, hshows.lists hcontent, hafter⟩

theorem coordinates_of_vacant {box : Box} (h : box.vacant) : box.coordinates = [] := by
  rw [← List.length_eq_zero_iff, Box.length_coordinates, Box.elementCount_of_vacant h]

/-- What the codec decodes of a region alone are the elements of the region. -/
theorem partialDecode_shows (hcodec : codec.Faithful chunk) (hsmall : chunk.Small)
    (hshows : Shows codec chunk elements cell) {box : Box} (hfits : box.fits chunk.shape)
    {part : Bytes}
    (h : ((codec.partialDecode chunk box).run Cell.store cell).1 = .ok (some part)) :
    part = box.coordinates.flatMap elements := by
  obtain ⟨decoded, hcontent, hlists⟩ := hshows
  have hpart := hcodec.partialDecode_eq box cell part decoded hfits h hcontent
  rw [hlists.extract_eq (hlists.length ▸ hsmall) hfits] at hpart
  exact (Except.ok.inj hpart).symm

/-- **A region is read as its elements.** -/
theorem read_shows {plan : ChunkPlan} {region : Bytes} (hfits : plan.chunkBox.fits plan.chunk.shape)
    (hsmall : plan.chunk.Small) (hreads : codec.ReadsOwn) (hcodec : codec.Faithful plan.chunk)
    (hshows : Shows codec plan.chunk elements cell)
    (h : (plan.read codec limit).run Cell.store cell = (.ok region, after)) :
    region = plan.chunkBox.coordinates.flatMap elements := by
  unfold ChunkPlan.read at h
  split at h
  next hvacant =>
    obtain ⟨hok, -⟩ := Prod.mk.inj h
    rw [coordinates_of_vacant hvacant]
    exact (Except.ok.inj hok).symm
  split at h
  next hcovers =>
    obtain ⟨-, hlists, -⟩ := readChunk_shows hshows h
    rw [Box.covers_iff.mp hcovers]
    exact hlists.eq_flatMap
  next =>
    obtain ⟨count, start, hcount, hrest⟩ := Job.run_bind_eq_ok h
    obtain ⟨-, rfl⟩ := Prod.mk.inj hcount
    obtain ⟨answer, between, hpart, hrest⟩ := Job.run_bind_eq_ok hrest
    have hsame := Cell.run_readsOnly (hreads plan.chunk plan.chunkBox) cell
    rw [hpart] at hsame
    obtain rfl : between = cell := hsame
    cases answer with
    | some part =>
      -- the codec has decoded the region alone
      obtain ⟨rfl, -⟩ := Chunk.checkSize_eq_ok (Prod.mk.inj hrest).1
      exact partialDecode_shows hcodec hsmall hshows hfits (congrArg Prod.fst hpart)
    | none =>
      -- the region is cut from the whole chunk
      obtain ⟨decoded, after', hread, hextract⟩ := Job.run_bind_eq_ok hrest
      obtain ⟨-, hlists, -⟩ := readChunk_shows hshows hread
      have hregion := (Prod.mk.inj hextract).1
      rw [hlists.extract_eq (hlists.length ▸ hsmall) hfits] at hregion
      exact (Except.ok.inj hregion).symm

/-! ### Writing -/

theorem holdsOnlyFill_eq (hsize : 0 < chunk.elementSize)
    (hlength : decoded.length = chunk.shape.elementCount * chunk.elementSize)
    (h : chunk.holdsOnlyFill decoded) : decoded = chunk.filled chunk.shape.elementCount := by
  have hpieces : Bytes.pieces chunk.elementSize decoded =
      List.replicate chunk.shape.elementCount chunk.fill := by
    rw [List.eq_replicate_iff]
    constructor
    · rw [Bytes.length_pieces, hlength, Nat.mul_div_cancel _ hsize]
    · intro piece hpiece
      simpa using List.all_eq_true.mp h piece hpiece
  rw [← Bytes.flatten_pieces hsize hlength, hpieces]
  rfl

/-- A whole chunk is written as its elements. -/
theorem writeChunk_shows (hsize : 0 < chunk.elementSize) (hcodec : codec.Faithful chunk)
    (hlists : chunk.Lists elements decoded)
    (h : (writeChunk codec storeEmpty chunk decoded).run Cell.store cell = (.ok (), after)) :
    Shows codec chunk elements after := by
  refine ⟨decoded, ?_, hlists⟩
  unfold writeChunk at h
  split at h
  next hempty =>
    -- a chunk of fill values is removed, and reads as fill values
    simp only [Bool.and_eq_true] at hempty
    obtain ⟨-, rfl⟩ := Prod.mk.inj h
    rw [holdsOnlyFill_eq hsize hlists.length hempty.2]
    rfl
  next =>
    obtain ⟨encoded, between, hencode, h⟩ := Job.run_bind_eq_ok h
    obtain ⟨hok, rfl⟩ := Prod.mk.inj hencode
    obtain ⟨-, rfl⟩ := Prod.mk.inj h
    exact hcodec.decode_encode decoded encoded hlists.length hok

namespace Chunk.Lists

/-- An update of a region puts the elements of the packed bytes at its coordinates. -/
theorem update (h : chunk.Lists elements decoded) (hsize : 0 < chunk.elementSize)
    (hsmall : chunk.Small) {box : Box} (hfits : box.fits chunk.shape) {data : Bytes}
    (hdata : data.length = box.elementCount * chunk.elementSize) :
    chunk.Lists (putAll (box.coordinates.zip (data.pieces chunk.elementSize)) elements)
      (box.update chunk.shape chunk.elementSize data decoded).buffer := by
  rw [Box.update_eq hsize hfits h.length (h.length ▸ hsmall) hdata, Box.indices,
    List.zip_map_left]
  refine h.putElements ?_
  intro write hwrite
  obtain ⟨hcoordinate, hpiece⟩ := List.of_mem_zip hwrite
  exact ⟨Box.holds_of_mem_coordinates hfits hcoordinate, Bytes.length_of_mem_pieces hpiece⟩

/-- The bytes of a whole chunk have their own elements, whatever was there before. -/
theorem update_whole (h : chunk.Lists elements decoded) (hsize : 0 < chunk.elementSize)
    (hsmall : chunk.Small) {data : Bytes}
    (hdata : data.length = chunk.shape.elementCount * chunk.elementSize) :
    chunk.Lists (putAll ((Box.whole chunk.shape).coordinates.zip
      (data.pieces chunk.elementSize)) elements) data := by
  have hcount : data.length = (Box.whole chunk.shape).elementCount * chunk.elementSize := by
    rwa [Box.elementCount_whole]
  have hupdate := h.update hsize hsmall (Box.fits_whole chunk.shape) hcount
  rw [Box.update_whole hsize h.length (h.length ▸ hsmall) hdata] at hupdate
  exact hupdate

end Chunk.Lists

/-- **A region is written as its elements**, and nothing else of the chunk changes. -/
theorem write_shows {plan : ChunkPlan} {data : Bytes} (hfits : plan.chunkBox.fits plan.chunk.shape)
    (hsize : 0 < plan.chunk.elementSize) (hsmall : plan.chunk.Small)
    (hcodec : codec.Faithful plan.chunk) (hshows : Shows codec plan.chunk elements cell)
    (hdata : plan.chunkBox.vacant = false →
      data.length = plan.chunkBox.elementCount * plan.chunk.elementSize)
    (h : (plan.write codec limit storeEmpty data).run Cell.store cell = (.ok (), after)) :
    Shows codec plan.chunk
      (putAll (plan.chunkBox.coordinates.zip (data.pieces plan.chunk.elementSize)) elements)
      after := by
  unfold ChunkPlan.write at h
  split at h
  next hvacant =>
    obtain ⟨-, rfl⟩ := Prod.mk.inj h
    rw [coordinates_of_vacant hvacant]
    exact hshows
  next hvacant =>
    have hlength := hdata (by simpa using hvacant)
    split at h
    next hcovers =>
      have hwhole := Box.covers_iff.mp hcovers
      obtain ⟨decoded, -, hlists⟩ := hshows
      rw [hwhole, Box.elementCount_whole] at hlength
      rw [hwhole]
      exact writeChunk_shows hsize hcodec (hlists.update_whole hsize hsmall hlength) h
    next =>
      -- the chunk is read, patched and written again
      obtain ⟨existing, between, hread, hrest⟩ := Job.run_bind_eq_ok h
      obtain ⟨_, between', -, hwrite⟩ := Job.run_bind_eq_ok hrest
      obtain ⟨-, hlists, -⟩ := readChunk_shows hshows hread
      exact writeChunk_shows hsize hcodec (hlists.update hsize hsmall hfits hlength) hwrite

end ChunkedArray
