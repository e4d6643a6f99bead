import ChunkedArray.Proofs.Region.Copy

/-!
# ChunkedArray.Proofs.Region.Laws

The laws of copying between a region and the array that it lies in.

An update writes the elements of the region, each at a place of its own, or it fails and
writes nothing (`update_eq_ite`). So what it does to the buffer is read off `Bytes.putElements`
alone, and the runs that both copies go by play no part here.
-/

namespace ChunkedArray

namespace Box

variable {box other : Box} {shape : Shape} {width : Nat} {buffer data otherData : Bytes}

/-- The writes of an update have their places in the array. -/
theorem writesFit_indices (hfits : box.fits shape)
    (hbuffer : buffer.length = shape.elementCount * width) (data : Bytes) :
    Bytes.WritesFit width buffer.length ((box.indices shape).zip (data.pieces width)) := by
  intro write hwrite
  obtain ⟨hindex, hpiece⟩ := List.of_mem_zip hwrite
  refine ⟨Bytes.length_of_mem_pieces hpiece, ?_⟩
  rw [hbuffer]
  exact Nat.mul_le_mul_right _ (indices_lt hfits hindex)

/-- Regions without a common coordinate have no place in common. -/
theorem indices_apart (hfits : box.fits shape) (hother : other.fits shape)
    (hdisjoint : List.Disjoint box.coordinates other.coordinates) {parts otherParts : List Bytes} :
    ∀ write ∈ (box.indices shape).zip parts, ∀ write' ∈ (other.indices shape).zip otherParts,
      write.1 ≠ write'.1 := by
  intro write hwrite write' hwrite' hsame
  obtain ⟨coordinate, hcoordinate, hplace⟩ := List.mem_map.mp (List.of_mem_zip hwrite).1
  have hmem : shape.linearIndex coordinate ∈ other.indices shape := by
    rw [hplace, hsame]
    exact (List.of_mem_zip hwrite').1
  rw [linearIndex_mem_indices hother (holds_of_mem_coordinates hfits hcoordinate)] at hmem
  exact hdisjoint hcoordinate hmem

section

variable (hwidth : 0 < width) (hfits : box.fits shape)
  (hbuffer : buffer.length = shape.elementCount * width) (hsmall : buffer.length < UInt64.size)

include hwidth hfits hbuffer hsmall

/-- Packed bytes of the size of the region are written; others are refused. -/
theorem update_eq_ite (hdata : data.length < UInt64.size) :
    box.update shape width data buffer = if data.length = box.elementCount * width then
      .unchanged (Bytes.putElements width ((box.indices shape).zip (data.pieces width)) buffer)
    else .failed buffer (.bufferSize box.lengths (box.packedSize width) data.length) := by
  split
  next hsize => exact update_eq hwidth hfits hbuffer hsmall hsize
  next hsize =>
    have hcount : box.elementCount * width < UInt64.size := by
      refine Nat.lt_of_le_of_lt (Nat.mul_le_mul_right _ (elementCount_le hfits)) ?_
      rwa [← hbuffer]
    -- both sizes fit a word, so comparing words is comparing sizes
    have hrefused : data.length.toUInt64 ≠ box.packedSize width := by
      intro hsame
      have hword := congrArg UInt64.toNat hsame
      rw [packedSize_eq, toNat_toUInt64 hdata, toNat_toUInt64 hcount] at hword
      exact hsize hword
    exact if_pos hrefused

/-- The size of the packed bytes alone decides whether an update succeeds. -/
theorem update_ok_iff (hdata : data.length < UInt64.size) :
    (box.update shape width data buffer).outcome = .ok () ↔
      data.length = box.elementCount * width := by
  rw [update_eq_ite hwidth hfits hbuffer hsmall hdata]
  split
  next hsize => exact iff_of_true rfl hsize
  next hsize => exact iff_of_false nofun hsize

/-- The buffer of an update: the elements are written, or none is. -/
theorem update_buffer_eq (hdata : data.length < UInt64.size) :
    (box.update shape width data buffer).buffer =
      if data.length = box.elementCount * width then
        Bytes.putElements width ((box.indices shape).zip (data.pieces width)) buffer
      else buffer := by
  rw [update_eq_ite hwidth hfits hbuffer hsmall hdata]
  split <;> rfl

theorem extract_update (hdata : data.length < UInt64.size)
    (hok : (box.update shape width data buffer).outcome = .ok ()) :
    box.extract shape width (box.update shape width data buffer).buffer = .ok data := by
  have hsize := (update_ok_iff hwidth hfits hbuffer hsmall hdata).mp hok
  have hlength := length_update box shape width data buffer
  -- one piece for every place, and no place twice: what is read are the pieces
  have hpieces : (box.indices shape).length = (data.pieces width).length := by
    rw [length_indices, Bytes.length_pieces, hsize, Nat.mul_div_cancel _ hwidth]
  rw [extract_eq hfits (hlength.trans hbuffer) (hlength ▸ hsmall),
    update_buffer_eq hwidth hfits hbuffer hsmall hdata, if_pos hsize, List.flatMap_def,
    Bytes.elements_putElements (writesFit_indices hfits hbuffer data) (nodup_indices hfits) hpieces,
    Bytes.flatten_pieces hwidth hsize]

theorem update_extract : ∃ part, box.extract shape width buffer = .ok part ∧
    box.update shape width part buffer = .unchanged buffer := by
  have hextract := extract_eq hfits hbuffer hsmall
  have hsize := length_extract hfits hbuffer hsmall hextract
  have hplaces : ∀ place ∈ box.indices shape, (place + 1) * width ≤ buffer.length := by
    intro place hplace
    rw [hbuffer]
    exact Nat.mul_le_mul_right _ (indices_lt hfits hplace)
  refine ⟨_, hextract, ?_⟩
  rw [update_eq hwidth hfits hbuffer hsmall hsize, List.flatMap_def,
    Bytes.pieces_flatten hwidth (length_of_mem_elements hfits hbuffer),
    Bytes.putElements_elements hplaces]

theorem element_update_outside (hdata : data.length < UInt64.size) {coordinate : Coordinate}
    (hcoordinate : shape.Holds coordinate) (houtside : coordinate ∉ box.coordinates) :
    (box.update shape width data buffer).buffer.element width (shape.linearIndex coordinate) =
      buffer.element width (shape.linearIndex coordinate) := by
  rw [update_buffer_eq hwidth hfits hbuffer hsmall hdata]
  split
  next =>
    refine Bytes.element_putElements_other (writesFit_indices hfits hbuffer data) ?_
    intro write hwrite hsame
    have hmem := hsame ▸ (List.of_mem_zip hwrite).1
    exact houtside ((linearIndex_mem_indices hfits hcoordinate).mp hmem)
  next => rfl

/-- An update ends as it does on another buffer of the same size. -/
theorem update_outcome_eq {buffer' : Bytes} (hlength : buffer'.length = buffer.length)
    (hdata : data.length < UInt64.size) :
    (box.update shape width data buffer').outcome =
      (box.update shape width data buffer).outcome := by
  rw [update_eq_ite hwidth hfits hbuffer hsmall hdata,
    update_eq_ite hwidth hfits (hlength.trans hbuffer) (hlength ▸ hsmall) hdata]
  split <;> rfl

theorem update_comm (hother : other.fits shape)
    (hdisjoint : List.Disjoint box.coordinates other.coordinates)
    (hdata : data.length < UInt64.size) (hotherData : otherData.length < UInt64.size) :
    (other.update shape width otherData (box.update shape width data buffer).buffer).buffer =
      (box.update shape width data (other.update shape width otherData buffer).buffer).buffer := by
  have hlength := length_update box shape width data buffer
  have hlength' := length_update other shape width otherData buffer
  rw [update_buffer_eq hwidth hother (hlength.trans hbuffer) (hlength ▸ hsmall) hotherData,
    update_buffer_eq hwidth hfits (hlength'.trans hbuffer) (hlength' ▸ hsmall) hdata,
    update_buffer_eq hwidth hfits hbuffer hsmall hdata,
    update_buffer_eq hwidth hother hbuffer hsmall hotherData]
  -- only two updates that both succeed write anything to exchange
  split <;> split
  · exact Bytes.putElements_comm (writesFit_indices hfits hbuffer data)
      (writesFit_indices hother hbuffer otherData) (indices_apart hfits hother hdisjoint)
  all_goals rfl

end

/-! ### The laws together -/

/-- What may be relied on where a region and an array are copied to each other. The packed bytes
are of any size that a machine word counts. -/
structure CopyLaws (box : Box) (shape : Shape) (width : Nat) (buffer : Bytes) : Prop where
  /-- What is written is read back. -/
  extract_update : ∀ data : Bytes, data.length < UInt64.size →
    (box.update shape width data buffer).outcome = .ok () →
    box.extract shape width (box.update shape width data buffer).buffer = .ok data
  /-- A region is read, and writing it back changes nothing. -/
  update_extract : ∃ part, box.extract shape width buffer = .ok part ∧
    box.update shape width part buffer = .unchanged buffer
  /-- The array keeps its size. -/
  length_eq : ∀ data : Bytes, (box.update shape width data buffer).buffer.length = buffer.length
  /-- An element outside the region keeps its bytes. -/
  outside : ∀ data : Bytes, data.length < UInt64.size → ∀ coordinate, shape.Holds coordinate →
    coordinate ∉ box.coordinates →
    (box.update shape width data buffer).buffer.element width (shape.linearIndex coordinate) =
      buffer.element width (shape.linearIndex coordinate)
  /-- Regions that have no element in common are written in either order. -/
  comm : ∀ (other : Box) (data otherData : Bytes), other.fits shape →
    List.Disjoint box.coordinates other.coordinates →
    data.length < UInt64.size → otherData.length < UInt64.size →
    (other.update shape width otherData (box.update shape width data buffer).buffer).buffer =
      (box.update shape width data (other.update shape width otherData buffer).buffer).buffer ∧
    (other.update shape width otherData (box.update shape width data buffer).buffer).outcome =
      (other.update shape width otherData buffer).outcome ∧
    (box.update shape width data (other.update shape width otherData buffer).buffer).outcome =
      (box.update shape width data buffer).outcome
  /-- Packed bytes of the size of the region are written. -/
  ok_iff : ∀ data : Bytes, data.length < UInt64.size →
    ((box.update shape width data buffer).outcome = .ok () ↔
      data.length = box.elementCount * width)
  /-- Others are refused, and change nothing. -/
  refused : ∀ data : Bytes, data.length < UInt64.size → data.length ≠ box.elementCount * width →
    box.update shape width data buffer =
      .failed buffer (.bufferSize box.lengths (box.packedSize width) data.length)

/-- The column of a two by two array at a position. -/
def column (position : UInt64) : Box := [⟨0, 2⟩, ⟨position, 1⟩]

end Box

end ChunkedArray
