import ChunkedArray.Proofs.Bytes
import ChunkedArray.Proofs.Region.Runs
import Mathlib.Data.List.Basic

/-!
# ChunkedArray.Proofs.Region.Copy

Copying runs is copying elements.

For a box that fits its shape and an array of the size of the shape, `extract_eq` and
`update_eq` say what the two copies do, element by element in row-major order. An update
of which only the size of the packed bytes is known, modulo the size of a machine word,
still succeeds (`update_ok`); this is what keeps a list of updates from stopping half-way.
-/

namespace ChunkedArray

/-! ### Sizes in machine words -/

theorem toNat_toUInt64 {size : Nat} (h : size < UInt64.size) : size.toUInt64.toNat = size := by
  simp
  omega

theorem toUInt64_toNat (word : UInt64) : word.toNat.toUInt64 = word := UInt64.ofNat_toNat

theorem toUInt64_mul (count width : Nat) :
    (count * width).toUInt64 = count.toUInt64 * width.toUInt64 := by
  simp

/-- A size in elements, in bytes that are counted by words. -/
theorem toNat_mul_toUInt64 (count width : Nat) (h : count * width.toUInt64.toNat < UInt64.size) :
    (count * width).toUInt64.toNat = count * width.toUInt64.toNat := by
  rw [← toNat_toUInt64 h, toUInt64_mul, toUInt64_mul, toUInt64_toNat]

namespace Box

variable {box : Box} {shape : Shape} {width : Nat} {bytes data buffer : Bytes}

theorem packedSize_eq (box : Box) (width : Nat) :
    box.packedSize width = (box.elementCount * width).toUInt64 :=
  (toUInt64_mul _ _).symm

/-! ### Extracting -/

/-- A region that has been cut is the bytes of its runs, all of which lie inside the array. -/
theorem extract_eq_ok {part : Bytes} (hvacant : box.vacant = false)
    (h : box.extract shape width bytes = .ok part) :
    box.fits shape ∧ (∀ range ∈ box.byteRanges shape width, range.within bytes.length) ∧
      ((box.byteRanges shape width).map (ByteRange.slice bytes)).flatten = part := by
  unfold extract at h
  rw [if_neg (by simpa using hvacant)] at h
  split at h
  next => cases h
  next hfits =>
    simp only [Bool.not_eq_true, Bool.not_eq_false'] at hfits
    split at h
    next parts hparts =>
      obtain ⟨hwithin, rfl⟩ := ByteRange.extract_eq_ok.mp hparts
      exact ⟨hfits, hwithin, Except.ok.inj h⟩
    next => cases h

/-- Whatever the size of the array is, a region that is cut from it has the size of the
region. -/
theorem length_of_extract {part : Bytes} (h : box.extract shape width bytes = .ok part) :
    part.length.toUInt64 = box.packedSize width := by
  rw [packedSize_eq]
  cases hvacant : box.vacant with
  | true =>
    rw [extract, if_pos hvacant] at h
    obtain rfl : [] = part := Except.ok.inj h
    rw [elementCount_of_vacant hvacant, Nat.zero_mul, List.length_nil]
  | false =>
    obtain ⟨hfits, hwithin, rfl⟩ := extract_eq_ok hvacant h
    -- every run that lies inside the bytes is cut at its full length
    have hrun : ∀ part ∈ (box.byteRanges shape width).map (ByteRange.slice bytes),
        part.length = ((box.runs shape).length * width).toUInt64.toNat := by
      intro part hpart
      obtain ⟨range, hrange, rfl⟩ := List.mem_map.mp hpart
      have hle := hwithin range hrange
      obtain ⟨start, -, rfl⟩ := List.mem_map.mp hrange
      simp only [ByteRange.within, Option.getD_some, decide_eq_true_eq] at hle
      rw [ByteRange.slice, List.length_take, List.length_drop, Nat.min_eq_left (by omega)]
    rw [Bytes.length_flatten hrun, List.length_map, byteRanges, List.length_map, toUInt64_mul,
      toUInt64_toNat, ← toUInt64_mul, ← Nat.mul_assoc, runs_count hfits]

/-- All runs are cut out if none of them passes the end. -/
theorem extract_byteRanges (h : ∀ start ∈ (box.runs shape).starts,
      (start * width).toUInt64.toNat + ((box.runs shape).length * width).toUInt64.toNat ≤
        bytes.length) :
    ByteRange.extract bytes (box.byteRanges shape width) =
      .ok ((box.byteRanges shape width).map (ByteRange.slice bytes)) := by
  rw [ByteRange.extract_eq_ok]
  refine ⟨?_, rfl⟩
  intro range hrange
  obtain ⟨start, hstart, rfl⟩ := List.mem_map.mp hrange
  simp only [ByteRange.within, Option.getD_some, h start hstart, decide_true]

/-- **What is cut from an array are the elements of the box.** -/
theorem extract_eq (hfits : box.fits shape) (hbytes : bytes.length = shape.elementCount * width)
    (hsmall : bytes.length < UInt64.size) : box.extract shape width bytes =
      .ok ((box.indices shape).flatMap (Bytes.element width · bytes)) := by
  unfold extract
  split
  next hvacant =>
    have hnil : box.indices shape = [] := by
      rw [← List.length_eq_zero_iff, length_indices, elementCount_of_vacant hvacant]
    rw [hnil]
    rfl
  next hvacant =>
    have hpos := runs_length_pos hfits (by simpa using hvacant)
    have hrun : ∀ start ∈ (box.runs shape).starts,
        (start * width).toUInt64.toNat = start * width ∧
        ((box.runs shape).length * width).toUInt64.toNat = (box.runs shape).length * width ∧
        start * width + (box.runs shape).length * width ≤ bytes.length := by
      intro start hstart
      have hle := Nat.mul_le_mul_right width (run_le hfits hstart hpos)
      rw [← hbytes, Nat.add_mul] at hle
      exact ⟨toNat_toUInt64 (by omega), toNat_toUInt64 (by omega), hle⟩
    have hparts := extract_byteRanges fun start hstart => by
      obtain ⟨hoffset, hsize, hle⟩ := hrun start hstart
      rwa [hoffset, hsize]
    rw [hparts]
    simp only [hfits, Bool.not_true, Bool.false_eq_true, if_false]
    congr 1
    rw [byteRanges, List.map_map, ← List.flatMap_def, ← runs_indices hfits, List.flatMap_assoc]
    refine List.flatMap_congr ?_
    intro start hstart
    obtain ⟨hoffset, hsize, -⟩ := hrun start hstart
    rw [Function.comp, ByteRange.slice, hoffset, hsize, Bytes.take_drop_eq_elements]

/-- The elements of a box have the width of an element. -/
theorem length_of_mem_elements (hfits : box.fits shape)
    (hbytes : bytes.length = shape.elementCount * width) :
    ∀ part ∈ (box.indices shape).map (Bytes.element width · bytes), part.length = width := by
  intro part hpart
  obtain ⟨index, hindex, rfl⟩ := List.mem_map.mp hpart
  refine Bytes.length_element ?_
  rw [hbytes]
  exact Nat.mul_le_mul_right _ (indices_lt hfits hindex)

/-- What is cut from an array has the size of the box. -/
theorem length_extract (hfits : box.fits shape)
    (hbytes : bytes.length = shape.elementCount * width) (hsmall : bytes.length < UInt64.size)
    {part : Bytes} (h : box.extract shape width bytes = .ok part) :
    part.length = box.elementCount * width := by
  obtain rfl := Except.ok.inj ((extract_eq hfits hbytes hsmall).symm.trans h)
  rw [List.flatMap_def, Bytes.length_flatten (length_of_mem_elements hfits hbytes),
    List.length_map, length_indices]

/-- **A region is cut without a fault** from an array that has the size of its shape, where
the size of an element is taken as a machine word. -/
theorem extract_ok (hfits : box.fits shape)
    (hbytes : bytes.length = shape.elementCount * width.toUInt64.toNat)
    (hsmall : bytes.length < UInt64.size) : ∃ part, box.extract shape width bytes = .ok part := by
  unfold extract
  split
  next => exact ⟨[], rfl⟩
  next hvacant =>
    have hpos := runs_length_pos hfits (by simpa using hvacant)
    have hparts := extract_byteRanges fun start hstart => by
      have hle := Nat.mul_le_mul_right width.toUInt64.toNat (run_le hfits hstart hpos)
      rw [← hbytes, Nat.add_mul] at hle
      rwa [toNat_mul_toUInt64 start width (by omega),
        toNat_mul_toUInt64 (box.runs shape).length width (by omega)]
    rw [hparts]
    simp only [hfits, Bool.not_true, Bool.false_eq_true, if_false]
    exact ⟨_, rfl⟩

/-! ### Updating -/

theorem length_writePieces (width : Nat) (writes : List (Bytes × Nat)) (buffer : Bytes) :
    (writePieces width writes buffer).buffer.length = buffer.length := by
  induction writes generalizing buffer with
  | nil => rfl
  | cons write writes ih =>
    simp only [writePieces]
    split
    next hle => rw [ih, Bytes.length_overwrite hle]
    next => rfl

/-- An update never changes the size of the buffer. -/
theorem length_update (box : Box) (shape : Shape) (width : Nat) (data buffer : Bytes) :
    (box.update shape width data buffer).buffer.length = buffer.length := by
  simp only [update]
  split
  · rfl
  split
  · rfl
  split
  · rfl
  · exact length_writePieces ..

theorem writePieces_ok {writes : List (Bytes × Nat)}
    (h : ∀ write ∈ writes,
      (write.2 * width).toUInt64.toNat + write.1.length ≤ buffer.length) :
    (writePieces width writes buffer).outcome = .ok () := by
  induction writes generalizing buffer with
  | nil => rfl
  | cons write writes ih =>
    have hle := h write (by simp)
    simp only [writePieces, if_pos hle]
    refine ih ?_
    intro other hother
    rw [Bytes.length_overwrite hle]
    exact h other (by simp [hother])

/-- **Packed bytes of the right size are written without a fault**, as long as the buffer
has the size of its shape. Both sizes are machine words here. -/
theorem update_ok (hfits : box.fits shape)
    (hbuffer : buffer.length = shape.elementCount * width.toUInt64.toNat)
    (hsmall : buffer.length < UInt64.size) (hdata : data.length.toUInt64 = box.packedSize width) :
    (box.update shape width data buffer).outcome = .ok () := by
  simp only [update, hdata, ne_eq, not_true_eq_false, if_false, hfits, Bool.not_true,
    Bool.false_eq_true]
  split
  next => rfl
  next hvacant =>
    have hpos := runs_length_pos hfits (by simpa using hvacant)
    apply writePieces_ok
    rintro ⟨piece, start⟩ hwrite
    obtain ⟨hpiece, hstart⟩ := List.of_mem_zip hwrite
    have hle := Nat.mul_le_mul_right width.toUInt64.toNat (run_le hfits hstart hpos)
    rw [← hbuffer, Nat.add_mul] at hle
    have hoffset := toNat_mul_toUInt64 start width (by omega)
    have hsize := toNat_mul_toUInt64 (box.runs shape).length width (by omega)
    rw [Bytes.length_of_mem_pieces hpiece, hoffset, hsize]
    exact hle

/-- An update from no bytes changes nothing, where none are expected. -/
theorem update_nil (hfits : box.fits shape) (hsize : box.packedSize width = 0) :
    box.update shape width [] buffer = .unchanged buffer := by
  simp [update, hsize, hfits, Bytes.pieces, Bytes.takePieces, writePieces]

/-- Writing rows of elements at their starts is writing the elements. -/
theorem writePieces_rows {starts : List Nat} {count : Nat} (hsmall : buffer.length < UInt64.size)
    (hrow : ∀ start ∈ starts, (start + count) * width ≤ buffer.length)
    (hdata : data.length = starts.length * (count * width)) :
    writePieces width ((data.takePieces (count * width) starts.length).zip starts) buffer =
      .unchanged (Bytes.putElements width ((starts.flatMap (List.range' · count)).zip
        (data.takePieces width (starts.length * count))) buffer) := by
  -- the rows are taken from the front of the data, and none changes the size of the buffer
  induction starts generalizing data buffer with
  | nil => rfl
  | cons start starts ih =>
    rw [List.length_cons, Nat.succ_mul] at hdata
    have hfirst : (data.take (count * width)).length = count * width := by
      rw [List.length_take]
      omega
    have hle : (start + count) * width ≤ buffer.length := hrow start (by simp)
    have hoffset : (start * width).toUInt64.toNat = start * width := by
      rw [Nat.add_mul] at hle
      exact toNat_toUInt64 (by omega)
    have hpast : start * width + (data.take (count * width)).length ≤ buffer.length := by
      rwa [hfirst, ← Nat.add_mul]
    have hlength := Bytes.length_overwrite hpast
    -- the first row, and the rest of the rows on the buffer that it leaves
    rw [List.length_cons, Bytes.takePieces, List.zip_cons_cons, List.flatMap_cons, Nat.succ_mul,
      Nat.add_comm _ count, Bytes.takePieces_add, List.zip_append (by simp),
      Bytes.putElements_append, ← Bytes.takePieces_take (Nat.le_refl (count * width)) data,
      ← Bytes.overwrite_row hfirst hle, writePieces, hoffset, if_pos hpast]
    refine ih ?_ (fun other hother => ?_) ?_
    · rwa [hlength]
    · rw [hlength]
      exact hrow other (by simp [hother])
    · rw [List.length_drop]
      omega

/-- **What is written to an array are the elements of the box.** -/
theorem update_eq (hwidth : 0 < width) (hfits : box.fits shape)
    (hbuffer : buffer.length = shape.elementCount * width) (hsmall : buffer.length < UInt64.size)
    (hdata : data.length = box.elementCount * width) :
    box.update shape width data buffer =
      .unchanged
        (Bytes.putElements width ((box.indices shape).zip (data.pieces width)) buffer) := by
  have hsize : data.length.toUInt64 = box.packedSize width := by rw [hdata, packedSize_eq]
  simp only [update, hsize, ne_eq, not_true_eq_false, if_false, hfits, Bool.not_true,
    Bool.false_eq_true]
  split
  next hvacant =>
    have hnil : data = [] := by
      rw [← List.length_eq_zero_iff, hdata, elementCount_of_vacant hvacant, Nat.zero_mul]
    rw [hnil, Bytes.pieces, List.length_nil, Nat.zero_div, Bytes.takePieces, List.zip_nil_right,
      Bytes.putElements_nil]
  next hvacant =>
    have hpos := runs_length_pos hfits (by simpa using hvacant)
    have hrow : ∀ start ∈ (box.runs shape).starts,
        (start + (box.runs shape).length) * width ≤ buffer.length := by
      intro start hstart
      rw [hbuffer]
      exact Nat.mul_le_mul_right width (run_le hfits hstart hpos)
    have hrows : data.length =
        (box.runs shape).starts.length * ((box.runs shape).length * width) := by
      rw [hdata, ← runs_count hfits, Nat.mul_assoc]
    obtain ⟨start, hstart⟩ := exists_run hfits (by simpa using hvacant)
    have hrunSize : ((box.runs shape).length * width).toUInt64.toNat =
        (box.runs shape).length * width := by
      have hle := hrow start hstart
      rw [Nat.add_mul] at hle
      exact toNat_toUInt64 (by omega)
    rw [hrunSize, Bytes.pieces_eq_takePieces (Nat.mul_pos hpos hwidth) hrows,
      writePieces_rows hsmall hrow hrows, runs_indices hfits, runs_count hfits,
      Bytes.pieces_eq_takePieces hwidth hdata]

/-! ### Whole arrays -/

theorem indices_whole (shape : Shape) :
    (whole shape).indices shape = List.range shape.elementCount := by
  rw [← runs_indices (fits_whole shape), runs_whole, List.flatMap_singleton,
    List.range_eq_range']

/-- Cutting out the whole array gives all of it. -/
theorem extract_whole (hbytes : bytes.length = shape.elementCount * width)
    (hsmall : bytes.length < UInt64.size) :
    (whole shape).extract shape width bytes = .ok bytes := by
  rw [extract_eq (fits_whole shape) hbytes hsmall, indices_whole, List.range_eq_range',
    ← Bytes.take_drop_eq_elements, Nat.zero_mul, List.drop_zero, ← hbytes, List.take_length]

/-- Writing the whole array leaves nothing of what was there. -/
theorem update_whole (hwidth : 0 < width) (hbuffer : buffer.length = shape.elementCount * width)
    (hsmall : buffer.length < UInt64.size) (hdata : data.length = shape.elementCount * width) :
    (whole shape).update shape width data buffer = .unchanged data := by
  have hcount : data.length = (whole shape).elementCount * width := by rwa [elementCount_whole]
  -- the elements written one after another are the bytes written at once
  have hrow : buffer.overwrite (0 * width) data = Bytes.putElements width
      ((List.range' 0 shape.elementCount).zip (data.takePieces width shape.elementCount)) buffer :=
    Bytes.overwrite_row hdata (by rw [Nat.zero_add, hbuffer])
  rw [Nat.zero_mul, Bytes.overwrite_whole (hdata.trans hbuffer.symm)] at hrow
  rw [update_eq hwidth (fits_whole shape) hbuffer hsmall hcount, indices_whole,
    List.range_eq_range', Bytes.pieces_eq_takePieces hwidth hdata, ← hrow]

end Box

end ChunkedArray
