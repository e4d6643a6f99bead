import ChunkedArray.Region.Coordinates
import ChunkedArray.Region.Copy
import Mathlib.Data.Nat.Basic

/-!
# ChunkedArray.Proofs.Bytes

Byte strings as rows of elements of one width.

Cutting a string into pieces undoes joining them (`pieces_flatten`), and writing a
piece that is a row of elements is writing the elements one after another
(`overwrite_row`). An element that is written is read back, and no other one changes
(`element_overwrite_own`, `element_overwrite_other`); so it is with many elements that have
places of their own (`elements_putElements`, `element_putElements_other`), whose order does
not matter (`putElements_comm`).
-/

namespace ChunkedArray

namespace Bytes

variable {bytes piece : Bytes} {width : Nat}

/-! ### Pieces -/

theorem takePieces_add (width first second : Nat) (bytes : Bytes) :
    takePieces width (first + second) bytes =
      takePieces width first bytes ++ takePieces width second (bytes.drop (first * width)) := by
  induction first generalizing bytes with
  | zero => simp [takePieces]
  | succ first ih =>
    rw [Nat.succ_add, takePieces, takePieces, ih, List.drop_drop, Nat.succ_mul,
      Nat.add_comm width, List.cons_append]

theorem takePieces_take {count limit : Nat} (h : count * width ≤ limit) (bytes : Bytes) :
    takePieces width count (bytes.take limit) = takePieces width count bytes := by
  induction count generalizing limit bytes with
  | zero => rfl
  | succ count ih =>
    rw [Nat.succ_mul] at h
    rw [takePieces, takePieces, List.take_take, Nat.min_eq_left (by omega), List.drop_take,
      ih (by omega)]

theorem pieces_eq_takePieces {count : Nat} (hwidth : 0 < width)
    (h : bytes.length = count * width) : pieces width bytes = takePieces width count bytes := by
  rw [pieces, h, Nat.mul_div_cancel _ hwidth]

theorem length_of_mem_takePieces {count : Nat} (h : count * width ≤ bytes.length)
    (hmem : piece ∈ takePieces width count bytes) : piece.length = width := by
  induction count generalizing bytes with
  | zero => simp [takePieces] at hmem
  | succ count ih =>
    rw [Nat.succ_mul] at h
    rcases List.mem_cons.mp hmem with rfl | hmem
    · rw [List.length_take, Nat.min_eq_left (by omega)]
    · exact ih (by rw [List.length_drop]; omega) hmem

theorem length_of_mem_pieces (hmem : piece ∈ pieces width bytes) : piece.length = width :=
  length_of_mem_takePieces (Nat.div_mul_le_self ..) hmem

theorem takePieces_flatten {parts : List Bytes} (h : ∀ part ∈ parts, part.length = width) :
    takePieces width parts.length parts.flatten = parts := by
  induction parts with
  | nil => rfl
  | cons part parts ih =>
    have hpart := h part (by simp)
    rw [List.flatten_cons, List.length_cons, takePieces, List.take_left' hpart,
      List.drop_left' hpart, ih fun other hother => h other (by simp [hother])]

theorem length_flatten {parts : List Bytes} (h : ∀ part ∈ parts, part.length = width) :
    parts.flatten.length = parts.length * width := by
  induction parts with
  | nil => simp
  | cons part parts ih =>
    rw [List.flatten_cons, List.length_append, h part (by simp),
      ih fun other hother => h other (by simp [hother]), List.length_cons, Nat.succ_mul,
      Nat.add_comm]

/-- Cutting joined pieces of one width gives the pieces back. -/
theorem pieces_flatten (hwidth : 0 < width) {parts : List Bytes}
    (h : ∀ part ∈ parts, part.length = width) : pieces width parts.flatten = parts := by
  rw [pieces_eq_takePieces hwidth (length_flatten h), takePieces_flatten h]

/-- A string that is a row of elements is its elements joined. -/
theorem flatten_pieces {count : Nat} (hwidth : 0 < width) (h : bytes.length = count * width) :
    (pieces width bytes).flatten = bytes := by
  rw [pieces_eq_takePieces hwidth h]
  induction count generalizing bytes with
  | zero =>
    rw [Nat.zero_mul] at h
    exact (List.length_eq_zero_iff.mp h).symm
  | succ count ih =>
    rw [Nat.succ_mul] at h
    rw [takePieces, List.flatten_cons, ih (by rw [List.length_drop]; omega),
      List.take_append_drop]

/-! ### Elements -/

theorem length_element {index : Nat} (h : (index + 1) * width ≤ bytes.length) :
    (element width index bytes).length = width := by
  rw [Nat.succ_mul] at h
  rw [element, List.length_take, List.length_drop, Nat.min_eq_left (by omega)]

/-- The bytes of a row of elements, element by element. -/
theorem take_drop_eq_elements (width start count : Nat) (bytes : Bytes) :
    (bytes.drop (start * width)).take (count * width) =
      (List.range' start count).flatMap (element width · bytes) := by
  induction count generalizing start with
  | zero => simp
  | succ count ih =>
    rw [List.range'_succ, List.flatMap_cons, ← ih, element, Nat.succ_mul, Nat.succ_mul,
      Nat.add_comm (count * width), List.take_add, List.drop_drop]

theorem takePieces_eq_elements (width count : Nat) (bytes : Bytes) :
    takePieces width count bytes = (List.range count).map (element width · bytes) := by
  induction count with
  | zero => rfl
  | succ count ih => rw [takePieces_add, ih, List.range_succ, List.map_append]; rfl

theorem element_flatten {parts : List Bytes} (h : ∀ part ∈ parts, part.length = width)
    {index : Nat} (hlt : index < parts.length) :
    element width index parts.flatten = parts[index] := by
  have hpieces := congrArg (·[index]?) (takePieces_flatten h)
  simp only [takePieces_eq_elements, List.getElem?_map, List.getElem?_range hlt,
    List.getElem?_eq_getElem hlt, Option.map_some] at hpieces
  exact Option.some.inj hpieces

/-! ### Overwriting -/

theorem overwrite_nil (bytes : Bytes) (offset : Nat) : overwrite bytes offset [] = bytes := by
  simp [overwrite]

theorem overwrite_whole (h : piece.length = bytes.length) : overwrite bytes 0 piece = piece := by
  simp [overwrite, h]

theorem overwrite_append {offset : Nat} (h : offset + piece.length ≤ bytes.length)
    (rest : Bytes) :
    overwrite bytes offset (piece ++ rest) =
      overwrite (overwrite bytes offset piece) (offset + piece.length) rest := by
  have htake : (bytes.take offset).length = offset := by
    rw [List.length_take]
    omega
  have hprefix : (bytes.take offset ++ piece).length = offset + piece.length := by
    rw [List.length_append, htake]
  have hbehind : (overwrite bytes offset piece).drop (offset + piece.length + rest.length)
      = bytes.drop (offset + piece.length + rest.length) := by
    rw [← List.drop_drop, overwrite, List.drop_left' hprefix, List.drop_drop]
  rw [overwrite, overwrite, hbehind, overwrite, List.take_left' hprefix, List.length_append,
    ← Nat.add_assoc, ← List.append_assoc]

theorem getElem?_overwrite {offset position : Nat} (h : offset + piece.length ≤ bytes.length) :
    (overwrite bytes offset piece)[position]? =
      if offset ≤ position ∧ position < offset + piece.length then piece[position - offset]?
      else bytes[position]? := by
  have htake : (bytes.take offset).length = offset := by
    rw [List.length_take]
    omega
  rw [overwrite, List.append_assoc, List.getElem?_append, htake]
  split
  next hbefore =>
    rw [if_neg (by omega), List.getElem?_take_of_lt hbefore]
  next hafter =>
    rw [List.getElem?_append]
    split
    next hinside => rw [if_pos (by omega)]
    next hbehind =>
      rw [if_neg (by omega), List.getElem?_drop]
      congr 1
      omega

/-- Writing an element at its place leaves the size as it is. -/
theorem length_overwrite_element {index : Nat} (hpiece : piece.length = width)
    (h : (index + 1) * width ≤ bytes.length) :
    (overwrite bytes (index * width) piece).length = bytes.length :=
  length_overwrite (by rwa [hpiece, ← Nat.succ_mul])

/-- An element that is written is read back. -/
theorem element_overwrite_own {index : Nat} (hpiece : piece.length = width)
    (h : (index + 1) * width ≤ bytes.length) :
    element width index (overwrite bytes (index * width) piece) = piece := by
  rw [Nat.succ_mul] at h
  have htake : (bytes.take (index * width)).length = index * width := by
    rw [List.length_take]
    omega
  rw [element, overwrite, List.append_assoc, List.drop_left' htake, List.take_left' hpiece]

/-- Different elements lie in rows of their own. -/
theorem rows_apart (width : Nat) {index other : Nat} (hne : other ≠ index) :
    (index + 1) * width ≤ other * width ∨ (other + 1) * width ≤ index * width := by
  rcases Nat.lt_or_gt_of_ne hne with hless | hmore
  · exact Or.inr (Nat.mul_le_mul_right width hless)
  · exact Or.inl (Nat.mul_le_mul_right width hmore)

/-- Writing one element leaves the others as they are. -/
theorem element_overwrite_other {index other : Nat} (hpiece : piece.length = width)
    (h : (index + 1) * width ≤ bytes.length) (hne : other ≠ index) :
    element width other (overwrite bytes (index * width) piece) = element width other bytes := by
  have hapart := rows_apart width hne
  simp only [Nat.succ_mul] at h hapart
  refine List.ext_getElem? ?_
  intro position
  simp only [element, List.getElem?_take, List.getElem?_drop]
  split
  next hposition =>
    rw [getElem?_overwrite (by omega), if_neg]
    omega
  next => rfl

/-- Two elements may be written in either order. -/
theorem overwrite_comm {index other : Nat} {otherPiece : Bytes} (hpiece : piece.length = width)
    (hother : otherPiece.length = width) (h : (index + 1) * width ≤ bytes.length)
    (h' : (other + 1) * width ≤ bytes.length) (hne : other ≠ index) :
    overwrite (overwrite bytes (index * width) piece) (other * width) otherPiece =
      overwrite (overwrite bytes (other * width) otherPiece) (index * width) piece := by
  have hapart := rows_apart width hne
  have hlength := length_overwrite_element hpiece h
  have hlength' := length_overwrite_element hother h'
  simp only [Nat.succ_mul] at h h' hapart
  refine List.ext_getElem? ?_
  intro position
  simp only [getElem?_overwrite, hlength, hlength', hpiece, hother, h, h']
  split <;> split <;> first | rfl | omega

/-- Writing an element that is there already changes nothing. -/
theorem overwrite_element {index : Nat} (h : (index + 1) * width ≤ bytes.length) :
    overwrite bytes (index * width) (element width index bytes) = bytes := by
  rw [overwrite, length_element h, element, List.append_assoc, ← List.drop_drop,
    List.take_append_drop, List.take_append_drop]

/-! ### Writing elements -/

/-- Writes elements one after another, each at its place. -/
def putElements (width : Nat) (writes : List (Nat × Bytes)) (bytes : Bytes) : Bytes :=
  writes.foldl (fun bytes write => bytes.overwrite (write.1 * width) write.2) bytes

@[simp] theorem putElements_nil (width : Nat) (bytes : Bytes) :
    putElements width [] bytes = bytes := rfl

@[simp] theorem putElements_cons (width : Nat) (write : Nat × Bytes) (writes : List (Nat × Bytes))
    (bytes : Bytes) : putElements width (write :: writes) bytes =
      putElements width writes (bytes.overwrite (write.1 * width) write.2) := rfl

theorem putElements_append (width : Nat) (first second : List (Nat × Bytes)) (bytes : Bytes) :
    putElements width (first ++ second) bytes =
      putElements width second (putElements width first bytes) :=
  List.foldl_append

/-- The elements are of one width, and each of them has its place among `size` bytes. -/
def WritesFit (width size : Nat) (writes : List (Nat × Bytes)) : Prop :=
  ∀ write ∈ writes, write.2.length = width ∧ (write.1 + 1) * width ≤ size

theorem writesFit_cons {size : Nat} {write : Nat × Bytes} {writes : List (Nat × Bytes)} :
    WritesFit width size (write :: writes) ↔
      (write.2.length = width ∧ (write.1 + 1) * width ≤ size) ∧ WritesFit width size writes :=
  List.forall_mem_cons

variable {writes : List (Nat × Bytes)}

/-- Elements that are not written stay as they are. -/
theorem element_putElements_other {index : Nat} (h : WritesFit width bytes.length writes)
    (hother : ∀ write ∈ writes, index ≠ write.1) :
    element width index (putElements width writes bytes) = element width index bytes := by
  induction writes generalizing bytes with
  | nil => rfl
  | cons write writes ih =>
    obtain ⟨hwrite, hwrites⟩ := writesFit_cons.mp h
    obtain ⟨hne, hother⟩ := List.forall_mem_cons.mp hother
    have hlength := length_overwrite_element hwrite.1 hwrite.2
    rw [putElements_cons, ih (hlength ▸ hwrites) hother,
      element_overwrite_other hwrite.1 hwrite.2 hne]

/-- Elements that are written to places of their own are read back. -/
theorem elements_putElements {places : List Nat} {pieces : List Bytes}
    (h : WritesFit width bytes.length (places.zip pieces)) (hnodup : places.Nodup)
    (hlength : places.length = pieces.length) :
    places.map (element width · (putElements width (places.zip pieces) bytes)) = pieces := by
  induction places generalizing pieces bytes with
  | nil => exact (List.length_eq_zero_iff.mp hlength.symm).symm
  | cons place places ih =>
    cases pieces with
    | nil => cases hlength
    | cons piece pieces =>
      rw [List.zip_cons_cons] at h
      obtain ⟨hwrite, hwrites⟩ := writesFit_cons.mp h
      obtain ⟨hplace, hnodup⟩ := List.nodup_cons.mp hnodup
      have hwrites := length_overwrite_element hwrite.1 hwrite.2 ▸ hwrites
      -- the writes behind the first one go to other places
      have hlater : ∀ write ∈ places.zip pieces, place ≠ write.1 := by
        intro write hmem hsame
        exact hplace (hsame ▸ (List.of_mem_zip hmem).1)
      rw [List.zip_cons_cons, List.map_cons, putElements_cons,
        element_putElements_other hwrites hlater, element_overwrite_own hwrite.1 hwrite.2,
        ih hwrites hnodup (Nat.succ.inj hlength)]

/-- Writing the elements that are there already changes nothing. -/
theorem putElements_elements {places : List Nat}
    (h : ∀ place ∈ places, (place + 1) * width ≤ bytes.length) :
    putElements width (places.zip (places.map (element width · bytes))) bytes = bytes := by
  induction places with
  | nil => rfl
  | cons place places ih =>
    obtain ⟨hplace, hplaces⟩ := List.forall_mem_cons.mp h
    rw [List.map_cons, List.zip_cons_cons, putElements_cons, overwrite_element hplace, ih hplaces]

/-- An element may be written before other ones or after them. -/
theorem putElements_overwrite {write : Nat × Bytes}
    (hwrite : write.2.length = width ∧ (write.1 + 1) * width ≤ bytes.length)
    (h : WritesFit width bytes.length writes) (hother : ∀ other ∈ writes, write.1 ≠ other.1) :
    putElements width writes (overwrite bytes (write.1 * width) write.2) =
      overwrite (putElements width writes bytes) (write.1 * width) write.2 := by
  induction writes generalizing bytes with
  | nil => rfl
  | cons other writes ih =>
    obtain ⟨hfirst, hwrites⟩ := writesFit_cons.mp h
    obtain ⟨hne, hother⟩ := List.forall_mem_cons.mp hother
    have hlength := length_overwrite_element hfirst.1 hfirst.2
    rw [putElements_cons, putElements_cons,
      overwrite_comm hwrite.1 hfirst.1 hwrite.2 hfirst.2 hne.symm,
      ih (hlength ▸ hwrite) (hlength ▸ hwrites) hother]

/-- Elements may be written in either order, where no place is written by both. -/
theorem putElements_comm {others : List (Nat × Bytes)} (h : WritesFit width bytes.length writes)
    (h' : WritesFit width bytes.length others)
    (hapart : ∀ write ∈ writes, ∀ other ∈ others, write.1 ≠ other.1) :
    putElements width others (putElements width writes bytes) =
      putElements width writes (putElements width others bytes) := by
  induction writes generalizing bytes with
  | nil => rfl
  | cons write writes ih =>
    obtain ⟨hwrite, hwrites⟩ := writesFit_cons.mp h
    obtain ⟨hfirst, hapart⟩ := List.forall_mem_cons.mp hapart
    have hlength := length_overwrite_element hwrite.1 hwrite.2
    -- first the rest is moved behind the others, then the first write
    rw [putElements_cons, putElements_cons, ih (hlength ▸ hwrites) (hlength ▸ h') hapart,
      putElements_overwrite hwrite h' hfirst]

/-- Writing a row of elements is writing its elements. -/
theorem overwrite_row {start count : Nat} (hpiece : piece.length = count * width)
    (h : (start + count) * width ≤ bytes.length) :
    overwrite bytes (start * width) piece =
      putElements width ((List.range' start count).zip (takePieces width count piece)) bytes := by
  induction count generalizing start bytes piece with
  | zero =>
    obtain rfl : piece = [] := List.length_eq_zero_iff.mp (by simpa using hpiece)
    exact overwrite_nil _ _
  | succ count ih =>
    have hfirst : (piece.take width).length = width := by
      rw [List.length_take, hpiece, Nat.succ_mul]
      omega
    have hle : start * width + (piece.take width).length ≤ bytes.length := by
      rw [hfirst, ← Nat.succ_mul]
      exact Nat.le_trans (Nat.mul_le_mul_right _ (by omega)) h
    have hrest : (piece.drop width).length = count * width := by
      rw [List.length_drop, hpiece, Nat.succ_mul, Nat.add_sub_cancel]
    rw [takePieces, List.range'_succ, List.zip_cons_cons, putElements_cons,
      ← ih hrest (by rw [length_overwrite hle, Nat.add_assoc, Nat.add_comm 1]; exact h)]
    have hsplit := overwrite_append hle (piece.drop width)
    rw [List.take_append_drop, hfirst, ← Nat.succ_mul] at hsplit
    exact hsplit

end Bytes

end ChunkedArray
