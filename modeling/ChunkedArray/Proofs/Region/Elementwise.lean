import ChunkedArray.Proofs.Region.Laws

/-!
# ChunkedArray.Proofs.Region.Elementwise

Copying run by run against copying element by element.

Taken one at a time, the elements of a region are visited by a loop over its coordinates in
row-major order: `gather` joins what it reads, `scatter` writes the elements of packed bytes
in turn. The copies go by runs instead, which are cut where an axis is not spanned whole.
That they are the same (`Elementwise`) rests on the order of the places: a region's places ascend
(`indices_ascending`, by induction on the axes), the runs have the same places in the same
order, and so no run reaches into the next one (`runs_ascending`).
-/

namespace ChunkedArray

namespace Box

variable {box : Box} {shape : Shape} {width : Nat} {buffer data : Bytes}

/-! ### The loop over the elements -/

/-- The elements of a region joined, coordinate by coordinate. -/
def gather (box : Box) (shape : Shape) (width : Nat) (bytes : Bytes) : Bytes :=
  box.coordinates.flatMap fun coordinate => bytes.element width (shape.linearIndex coordinate)

/-- Writes the first element of the data at the first coordinate of a region, the second one at
the second, and so on. The entries of the loop are a coordinate and its number. -/
def scatter (box : Box) (shape : Shape) (width : Nat) (data buffer : Bytes) : Bytes :=
  box.coordinates.zipIdx.foldl (fun buffer entry =>
    buffer.overwrite (shape.linearIndex entry.1 * width) (data.element width entry.2)) buffer

theorem gather_eq (box : Box) (shape : Shape) (width : Nat) (bytes : Bytes) :
    box.gather shape width bytes =
      (box.indices shape).flatMap (Bytes.element width · bytes) := by
  rw [gather, indices, List.flatMap_map]

/-- Data of the size of a region has one element for each of its coordinates. -/
theorem pieces_eq_elements (hwidth : 0 < width) (hdata : data.length = box.elementCount * width) :
    data.pieces width = (List.range box.elementCount).map (Bytes.element width · data) := by
  rw [Bytes.pieces_eq_takePieces hwidth hdata, Bytes.takePieces_eq_elements]

theorem scatter_eq (hwidth : 0 < width) (hdata : data.length = box.elementCount * width) :
    box.scatter shape width data buffer =
      Bytes.putElements width ((box.indices shape).zip (data.pieces width)) buffer := by
  rw [pieces_eq_elements hwidth hdata, indices, List.zip_map, Bytes.putElements, List.foldl_map,
    scatter, List.zipIdx_eq_zip_range', length_coordinates, ← List.range_eq_range']
  rfl

/-- An element that is written at a coordinate is found there. -/
theorem element_update_inside (hwidth : 0 < width) (hfits : box.fits shape)
    (hbuffer : buffer.length = shape.elementCount * width) (hsmall : buffer.length < UInt64.size)
    (hdata : data.length = box.elementCount * width) {k : Nat} {coordinate : Coordinate}
    (hcoordinate : box.coordinates[k]? = some coordinate) :
    (box.update shape width data buffer).buffer.element width (shape.linearIndex coordinate) =
      data.element width k := by
  have hcount : (box.indices shape).length = (data.pieces width).length := by
    rw [length_indices, Bytes.length_pieces, hdata, Nat.mul_div_cancel _ hwidth]
  have hread := Bytes.elements_putElements (writesFit_indices hfits hbuffer data)
    (nodup_indices hfits) hcount
  have hk : k < box.elementCount := by
    rw [← length_coordinates]
    exact (List.getElem?_eq_some_iff.mp hcoordinate).1
  -- the element at this coordinate among all that are read back
  have hown := congrArg (·[k]?) hread
  rw [pieces_eq_elements hwidth hdata] at hown
  simp only [indices, List.getElem?_map, hcoordinate, List.getElem?_range hk, Option.map_some]
    at hown
  rw [update_eq hwidth hfits hbuffer hsmall hdata, pieces_eq_elements hwidth hdata]
  exact Option.some.inj hown

/-! ### The order of the runs -/

/-- In row-major order, the places of a region ascend. -/
theorem indices_ascending (hfits : box.fits shape) : (box.indices shape).Pairwise (· < ·) := by
  induction hfits using fits_induction with
  | nil => exact List.pairwise_singleton _ _
  | cons span box length shape hstop hfits ih =>
    rw [indices_cons, List.pairwise_flatMap]
    refine ⟨fun position _ => List.pairwise_map.mpr (ih.imp fun h => Nat.add_lt_add_left h _), ?_⟩
    refine (List.pairwise_lt_range' ..).imp ?_
    intro position later hlater place hplace place' hplace'
    obtain ⟨inner, hinner, rfl⟩ := List.mem_map.mp hplace
    obtain ⟨inner', -, rfl⟩ := List.mem_map.mp hplace'
    -- all places of one position of the outer axis are before those of the next position
    calc position * shape.elementCount + inner
        < position * shape.elementCount + shape.elementCount :=
          Nat.add_lt_add_left (indices_lt hfits hinner) _
      _ = (position + 1) * shape.elementCount := by rw [Nat.add_mul, Nat.one_mul]
      _ ≤ later * shape.elementCount := Nat.mul_le_mul_right _ hlater
      _ ≤ later * shape.elementCount + inner' := Nat.le_add_right ..

/-- A run ends before the next one starts. -/
theorem runs_ascending (hfits : box.fits shape) (hvacant : box.vacant = false) :
    (box.runs shape).starts.Pairwise
      fun start next => start + (box.runs shape).length ≤ next := by
  have hplaces := indices_ascending hfits
  rw [← runs_indices hfits, List.pairwise_flatMap] at hplaces
  have hpos := runs_length_pos hfits hvacant
  refine hplaces.2.imp ?_
  intro start next hbefore
  have hlast := hbefore (start + ((box.runs shape).length - 1))
    (by rw [List.mem_range'_1]; omega) next (by rw [List.mem_range'_1]; omega)
  omega

/-- Is a place one of the run with this start? -/
def InRun (box : Box) (shape : Shape) (start place : Nat) : Prop :=
  start ≤ place ∧ place < start + (box.runs shape).length

theorem mem_indices_iff_inRun (hfits : box.fits shape) {place : Nat} :
    place ∈ box.indices shape ↔ ∃ start ∈ (box.runs shape).starts, box.InRun shape start place := by
  simp only [← runs_indices hfits, List.mem_flatMap, List.mem_range'_1, InRun]

/-- Runs with a common place are the same run. -/
theorem start_unique (hfits : box.fits shape) (hvacant : box.vacant = false)
    {start other place : Nat} (hstart : start ∈ (box.runs shape).starts)
    (hother : other ∈ (box.runs shape).starts) (hrun : box.InRun shape start place)
    (hrun' : box.InRun shape other place) : other = start := by
  have hascending := List.pairwise_iff_getElem.mp (runs_ascending hfits hvacant)
  obtain ⟨i, hi, rfl⟩ := List.getElem_of_mem hstart
  obtain ⟨j, hj, rfl⟩ := List.getElem_of_mem hother
  obtain ⟨hle, hlt⟩ := hrun
  obtain ⟨hle', hlt'⟩ := hrun'
  -- of two different runs, the first one ends before the place
  rcases Nat.lt_trichotomy i j with hbefore | rfl | hbehind
  · have hend := hascending i j hi hj hbefore
    omega
  · rfl
  · have hend := hascending j i hj hi hbehind
    omega

/-! ### Both copies together -/

/-- The size of a run in bytes, as an update computes it. -/
def runSize (box : Box) (shape : Shape) (width : Nat) : Nat :=
  ((box.runs shape).length * width).toUInt64.toNat

section

variable (hwidth : 0 < width) (hfits : box.fits shape) (hvacant : box.vacant = false)
  (hbuffer : buffer.length = shape.elementCount * width) (hsmall : buffer.length < UInt64.size)

include hfits hvacant hbuffer hsmall

/-- The word for the size of a run is exact. -/
theorem runSize_eq : box.runSize shape width = (box.runs shape).length * width := by
  obtain ⟨start, hstart⟩ := exists_run hfits hvacant
  have hle := Nat.mul_le_mul_right width (run_le hfits hstart (runs_length_pos hfits hvacant))
  rw [← hbuffer, Nat.add_mul] at hle
  exact toNat_toUInt64 (by omega)

include hwidth

/-- Data of the size of a region is cut into pieces without a rest, one for each run. -/
theorem runs_number (hdata : data.length = box.elementCount * width) :
    0 < box.runSize shape width ∧
      data.length = (box.runs shape).starts.length * box.runSize shape width := by
  rw [runSize_eq hfits hvacant hbuffer hsmall, hdata, ← runs_count hfits, Nat.mul_assoc]
  exact ⟨Nat.mul_pos (runs_length_pos hfits hvacant) hwidth, rfl⟩

end

/-- What copying a region run by run has in common with the loop over its elements, and what its
runs are. -/
structure Elementwise (box : Box) (shape : Shape) (width : Nat) (buffer : Bytes) : Prop where
  /-- What is cut out are the elements in row-major order. -/
  extracted : box.extract shape width buffer = .ok (box.gather shape width buffer)
  /-- Data of the size of the region is written as the loop writes it. -/
  updated : ∀ data : Bytes, data.length = box.elementCount * width →
    box.update shape width data buffer = .unchanged (box.scatter shape width data buffer)
  /-- The elements of the data are found at the coordinates afterwards, in order. -/
  inside : ∀ data : Bytes, data.length = box.elementCount * width →
    ∀ k coordinate, box.coordinates[k]? = some coordinate →
    (box.update shape width data buffer).buffer.element width (shape.linearIndex coordinate) =
      data.element width k
  /-- At all other coordinates of the array, the buffer has the element it had. -/
  outside : ∀ data : Bytes, data.length = box.elementCount * width →
    ∀ coordinate, shape.Holds coordinate → coordinate ∉ box.coordinates →
    (box.update shape width data buffer).buffer.element width (shape.linearIndex coordinate) =
      buffer.element width (shape.linearIndex coordinate)
  /-- An update pairs the pieces of the data with the runs: it has as many pieces as there are
  runs, and nothing is left behind the last one. -/
  paired : ∀ data : Bytes, data.length = box.elementCount * width →
    box.update shape width data buffer = writePieces width
      ((data.pieces (box.runSize shape width)).zip (box.runs shape).starts) buffer ∧
    (box.runs shape).starts.length = data.length / box.runSize shape width ∧
    box.runSize shape width ∣ data.length
  /-- The runs follow each other without a common place. -/
  apart : (box.runs shape).starts.Pairwise
    fun start next => start + (box.runs shape).length ≤ next
  /-- Every coordinate of the region has its place in exactly one run. -/
  covered : ∀ coordinate ∈ box.coordinates, ∃! start,
    start ∈ (box.runs shape).starts ∧ box.InRun shape start (shape.linearIndex coordinate)
  /-- The runs have no other places. -/
  within : ∀ start ∈ (box.runs shape).starts, ∀ place, box.InRun shape start place →
    ∃ coordinate ∈ box.coordinates, shape.linearIndex coordinate = place

/-- **Copying run by run is copying element by element**, for shapes of every rank, elements of
at least one byte, regions that have elements and arrays of the size of their shape. -/
theorem copied_elementwise (box : Box) (shape : Shape) (width : Nat) (buffer : Bytes)
    (hwidth : 0 < width) (hfits : box.fits shape) (hvacant : box.vacant = false)
    (hbuffer : buffer.length = shape.elementCount * width) (hsmall : buffer.length < UInt64.size) :
    box.Elementwise shape width buffer where
  extracted := by rw [extract_eq hfits hbuffer hsmall, gather_eq]
  updated data hdata := by
    rw [update_eq hwidth hfits hbuffer hsmall hdata, scatter_eq hwidth hdata]
  inside _ hdata _ _ hcoordinate :=
    element_update_inside hwidth hfits hbuffer hsmall hdata hcoordinate
  outside data hdata _ hcoordinate houtside := by
    refine element_update_outside hwidth hfits hbuffer hsmall ?_ hcoordinate houtside
    calc data.length = box.elementCount * width := hdata
      _ ≤ shape.elementCount * width := Nat.mul_le_mul_right _ (elementCount_le hfits)
      _ = buffer.length := hbuffer.symm
      _ < UInt64.size := hsmall
  paired data hdata := by
    obtain ⟨hpos, hnumber⟩ := runs_number hwidth hfits hvacant hbuffer hsmall hdata
    refine ⟨?_, ?_, hnumber ▸ Nat.dvd_mul_left ..⟩
    · have hsize : data.length.toUInt64 = box.packedSize width := by rw [hdata, packedSize_eq]
      simp [update, hsize, hvacant, hfits, runSize]
    · rw [hnumber, Nat.mul_div_cancel _ hpos]
  apart := runs_ascending hfits hvacant
  covered coordinate hcoordinate := by
    obtain ⟨start, hstart, hrun⟩ :=
      (mem_indices_iff_inRun hfits).mp (List.mem_map_of_mem hcoordinate)
    refine ⟨start, ⟨hstart, hrun⟩, ?_⟩
    intro other hother
    exact start_unique hfits hvacant hstart hother.1 hrun hother.2
  within start hstart _ hrun :=
    List.mem_map.mp ((mem_indices_iff_inRun hfits).mpr ⟨start, hstart, hrun⟩)

/-- The second rows of two layers of two-byte elements: one axis is spanned whole, and makes a
run in each layer. -/
theorem copied_elementwise_rows :
    Box.Elementwise [⟨0, 2⟩, ⟨1, 1⟩, ⟨0, 2⟩] [2, 2, 2] 2
      [0, 1, 2, 3, 4, 5, 6, 7, 8, 9, 10, 11, 12, 13, 14, 15] ∧
    Box.extract [⟨0, 2⟩, ⟨1, 1⟩, ⟨0, 2⟩] [2, 2, 2] 2
      [0, 1, 2, 3, 4, 5, 6, 7, 8, 9, 10, 11, 12, 13, 14, 15] =
        .ok [4, 5, 6, 7, 12, 13, 14, 15] := by
  have hcopied := copied_elementwise [⟨0, 2⟩, ⟨1, 1⟩, ⟨0, 2⟩] [2, 2, 2] 2
    [0, 1, 2, 3, 4, 5, 6, 7, 8, 9, 10, 11, 12, 13, 14, 15] (by decide) (by decide) (by decide)
    (by decide) (by decide)
  exact ⟨hcopied, hcopied.extracted⟩

end Box

end ChunkedArray
