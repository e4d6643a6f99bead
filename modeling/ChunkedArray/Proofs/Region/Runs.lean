import ChunkedArray.Region.Coordinates
import ChunkedArray.Region.Runs
import Mathlib.Data.List.Nodup
import Mathlib.Data.Nat.Basic

/-!
# ChunkedArray.Proofs.Region.Runs

The runs of a box hold its elements, in row-major order.

`Box.indices` lists the places of the elements of a box in the order of the box; taking
the places run by run gives the same list (`runs_indices`). A coordinate of a box that
fits its shape lies inside the shape (`Shape.Holds`), where different coordinates have
different places (`linearIndex_injective`), all of them below the number of elements
(`linearIndex_lt`). So no place is taken twice (`nodup_indices`).
-/

namespace ChunkedArray

/-! ### Places of coordinates -/

/-- The coordinate has the rank of the shape and passes none of its axes. -/
def Shape.Holds : Shape → Coordinate → Prop
  | [], [] => True
  | length :: shape, position :: coordinate => position < length.toNat ∧ Holds shape coordinate
  | _, _ => False

namespace Shape

theorem linearIndex_lt {shape : Shape} {coordinate : Coordinate} (h : shape.Holds coordinate) :
    shape.linearIndex coordinate < shape.elementCount := by
  induction shape generalizing coordinate with
  | nil => exact Nat.zero_lt_one
  | cons length shape ih =>
    cases coordinate with
    | nil => exact h.elim
    | cons position coordinate =>
      obtain ⟨hposition, hrest⟩ := h
      calc position * elementCount shape + linearIndex shape coordinate
          < position * elementCount shape + elementCount shape := by
            exact Nat.add_lt_add_left (ih hrest) _
        _ = (position + 1) * elementCount shape := by rw [Nat.add_mul, Nat.one_mul]
        _ ≤ length.toNat * elementCount shape := Nat.mul_le_mul_right _ hposition

theorem linearIndex_injective {shape : Shape} {coordinate other : Coordinate}
    (h : shape.Holds coordinate) (hother : shape.Holds other)
    (heq : shape.linearIndex coordinate = shape.linearIndex other) : coordinate = other := by
  induction shape generalizing coordinate other with
  | nil =>
    cases coordinate with
    | nil => cases other with
      | nil => rfl
      | cons position other => exact hother.elim
    | cons position coordinate => exact h.elim
  | cons length shape ih =>
    cases coordinate with
    | nil => exact h.elim
    | cons position coordinate =>
      cases other with
      | nil => exact hother.elim
      | cons position' other =>
        -- the place on the outer axis is the quotient, the rest is the remainder
        have hlt := linearIndex_lt h.2
        have hlt' := linearIndex_lt hother.2
        simp only [linearIndex] at heq
        have hpos : 0 < elementCount shape := by omega
        have hquot : position = position' := by
          have hdiv := congrArg (· / elementCount shape) heq
          simpa only [Nat.mul_comm _ (elementCount shape), Nat.mul_add_div hpos,
            Nat.div_eq_of_lt hlt, Nat.div_eq_of_lt hlt', Nat.add_zero] using hdiv
        subst hquot
        rw [ih h.2 hother.2 (Nat.add_left_cancel heq)]

end Shape

namespace Box

theorem fits_cons {span : Span} {box : Box} {length : UInt64} {shape : Shape} :
    fits (span :: box) (length :: shape) ↔ span.stop ≤ length.toNat ∧ fits box shape := by
  simp [fits]

/-- Induction on the axes of a box that fits a shape. -/
theorem fits_induction {motive : ∀ (box : Box) (shape : Shape), fits box shape → Prop}
    (nil : motive [] [] rfl)
    (cons : ∀ (span : Span) (box : Box) (length : UInt64) (shape : Shape)
      (hstop : span.stop ≤ length.toNat) (hfits : fits box shape), motive box shape hfits →
      motive (span :: box) (length :: shape) (fits_cons.mpr ⟨hstop, hfits⟩))
    {box : Box} {shape : Shape} (h : fits box shape) : motive box shape h := by
  induction box generalizing shape with
  | nil =>
    cases shape with
    | nil => exact nil
    | cons length shape => simp [fits] at h
  | cons span box ih =>
    cases shape with
    | nil => simp [fits] at h
    | cons length shape =>
      obtain ⟨hstop, hfits⟩ := fits_cons.mp h
      exact cons span box length shape hstop hfits (ih hfits)

theorem holds_of_mem_coordinates {box : Box} {shape : Shape} (h : fits box shape)
    {coordinate : Coordinate} (hmem : coordinate ∈ box.coordinates) : shape.Holds coordinate := by
  induction h using fits_induction generalizing coordinate with
  | nil =>
    obtain rfl : coordinate = [] := List.mem_singleton.mp hmem
    trivial
  | cons span box length shape hstop hfits ih =>
    simp only [coordinates, List.mem_flatMap, List.mem_map] at hmem
    obtain ⟨position, hposition, rest, hrest, rfl⟩ := hmem
    exact ⟨Nat.lt_of_lt_of_le (Span.mem_positions.mp hposition).2 hstop, ih hrest⟩

/-! ### The elements of a box, run by run -/

/-- The places of the elements of a box in the row-major order of an array. -/
def indices (box : Box) (shape : Shape) : List Nat := box.coordinates.map shape.linearIndex

@[simp] theorem length_indices (box : Box) (shape : Shape) :
    (box.indices shape).length = box.elementCount := by
  rw [indices, List.length_map, length_coordinates]

theorem indices_lt {box : Box} {shape : Shape} (h : fits box shape) {index : Nat}
    (hmem : index ∈ box.indices shape) : index < shape.elementCount := by
  obtain ⟨coordinate, hcoordinate, rfl⟩ := List.mem_map.mp hmem
  exact Shape.linearIndex_lt (holds_of_mem_coordinates h hcoordinate)

/-- No coordinate of a box is visited twice. -/
theorem nodup_coordinates (box : Box) : box.coordinates.Nodup := by
  induction box with
  | nil => exact List.nodup_singleton _
  | cons span box ih =>
    rw [coordinates, List.nodup_flatMap]
    refine ⟨fun position _ => ih.map fun first second hsame => (List.cons.inj hsame).2, ?_⟩
    refine (List.nodup_range' ..).imp ?_
    intro first second hne coordinate hfirst hsecond
    obtain ⟨rest, -, rfl⟩ := List.mem_map.mp hfirst
    obtain ⟨rest', -, hsame⟩ := List.mem_map.mp hsecond
    exact hne (List.cons.inj hsame).1.symm

/-- Nor is a place of a box that fits. -/
theorem nodup_indices {box : Box} {shape : Shape} (h : fits box shape) :
    (box.indices shape).Nodup := by
  refine (List.nodup_map_iff_inj_on (nodup_coordinates box)).mpr ?_
  intro first hfirst second hsecond hsame
  exact Shape.linearIndex_injective (holds_of_mem_coordinates h hfirst)
    (holds_of_mem_coordinates h hsecond) hsame

theorem linearIndex_mem_indices {box : Box} {shape : Shape} (h : fits box shape)
    {coordinate : Coordinate} (hcoordinate : shape.Holds coordinate) :
    shape.linearIndex coordinate ∈ box.indices shape ↔ coordinate ∈ box.coordinates := by
  refine ⟨fun hmem => ?_, List.mem_map_of_mem⟩
  obtain ⟨other, hother, hsame⟩ := List.mem_map.mp hmem
  have hholds := holds_of_mem_coordinates h hother
  rwa [Shape.linearIndex_injective hcoordinate hholds hsame.symm]

theorem indices_cons (span : Span) (box : Box) (length : UInt64) (shape : Shape) :
    indices (span :: box) (length :: shape) = span.positions.flatMap fun position =>
      (box.indices shape).map (position * shape.elementCount + ·) := by
  simp only [indices, coordinates, List.map_flatMap, List.map_map]
  rfl

/-- Ranges of one length that follow each other are one range. -/
theorem flatMap_range' (start count volume : Nat) :
    (List.range' start count).flatMap (fun position => List.range' (position * volume) volume)
      = List.range' (start * volume) (count * volume) := by
  induction count generalizing start with
  | zero => simp
  | succ count ih =>
    rw [List.range'_succ, List.flatMap_cons, ih, Nat.add_mul, Nat.one_mul, List.range'_append_1,
      Nat.add_comm volume, ← Nat.succ_mul]

/-- **Run by run, the elements of a box come in row-major order.** -/
theorem runs_indices {box : Box} {shape : Shape} (h : fits box shape) :
    ((box.runs shape).starts.flatMap fun start => List.range' start (box.runs shape).length)
      = box.indices shape := by
  induction h using fits_induction with
  | nil => rfl
  | cons span box length shape hstop hfits ih =>
    rw [indices_cons, ← ih]
    by_cases hcovers : covers box shape
    · -- the inner axes are spanned whole: one run of all positions
      obtain rfl := covers_iff.mp hcovers
      simp only [runs, hcovers, runs_whole, if_true, List.flatMap_singleton, List.map_add_range',
        Nat.add_zero]
      exact (flatMap_range' _ _ _).symm
    · -- a copy of the inner runs for every position
      simp only [runs, hcovers, Bool.false_eq_true, if_false, List.flatMap_assoc,
        List.flatMap_map, List.map_flatMap, List.map_add_range']

/-- All runs together have as many elements as the box. -/
theorem runs_count {box : Box} {shape : Shape} (h : fits box shape) :
    (box.runs shape).starts.length * (box.runs shape).length = box.elementCount := by
  have hlength := congrArg List.length (runs_indices h)
  simpa [List.length_flatMap, List.map_const'] using hlength

theorem run_mem_indices {box : Box} {shape : Shape} (h : fits box shape) {start offset : Nat}
    (hstart : start ∈ (box.runs shape).starts) (hoffset : offset < (box.runs shape).length) :
    start + offset ∈ box.indices shape := by
  rw [← runs_indices h]
  exact List.mem_flatMap.mpr ⟨start, hstart, by simpa using hoffset⟩

/-- No run passes the end of the array. -/
theorem run_le {box : Box} {shape : Shape} (h : fits box shape) {start : Nat}
    (hstart : start ∈ (box.runs shape).starts) (hpos : 0 < (box.runs shape).length) :
    start + (box.runs shape).length ≤ shape.elementCount := by
  have hlast := run_mem_indices h hstart (Nat.sub_lt hpos Nat.zero_lt_one)
  have hlt := indices_lt h hlast
  omega

theorem elementCount_pos {box : Box} (h : box.vacant = false) : 0 < box.elementCount := by
  induction box with
  | nil => exact Nat.zero_lt_one
  | cons span box ih =>
    simp only [vacant, List.any_cons, Bool.or_eq_false_iff, beq_eq_false_iff_ne] at h ih
    have hlength : 0 < span.length.toNat :=
      Nat.pos_of_ne_zero fun hzero => h.1 (UInt64.toNat_inj.mp hzero)
    exact Nat.mul_pos hlength (ih h.2)

theorem elementCount_of_vacant {box : Box} (h : box.vacant) : box.elementCount = 0 := by
  induction box with
  | nil => simp [vacant] at h
  | cons span box ih =>
    simp only [vacant, List.any_cons, Bool.or_eq_true, beq_iff_eq] at h ih
    rcases h with hspan | hrest
    · exact Nat.mul_eq_zero.mpr (Or.inl (by rw [hspan]; rfl))
    · exact Nat.mul_eq_zero.mpr (Or.inr (ih hrest))

theorem vacant_iff {box : Box} : box.vacant ↔ box.elementCount = 0 := by
  refine ⟨elementCount_of_vacant, fun hzero => ?_⟩
  by_contra hvacant
  have hpos := elementCount_pos (Bool.eq_false_iff.mpr hvacant)
  omega

theorem runs_length_pos {box : Box} {shape : Shape} (h : fits box shape)
    (hvacant : box.vacant = false) : 0 < (box.runs shape).length := by
  have hcount := runs_count h
  have hpos := elementCount_pos hvacant
  rw [← hcount] at hpos
  exact Nat.pos_of_mul_pos_left hpos

theorem exists_run {box : Box} {shape : Shape} (h : fits box shape)
    (hvacant : box.vacant = false) : ∃ start, start ∈ (box.runs shape).starts := by
  apply List.exists_mem_of_ne_nil
  intro hnil
  have hcount := runs_count h
  rw [hnil, List.length_nil, Nat.zero_mul] at hcount
  exact Nat.ne_of_lt (elementCount_pos hvacant) hcount

theorem elementCount_le {box : Box} {shape : Shape} (h : fits box shape) :
    box.elementCount ≤ shape.elementCount := by
  induction h using fits_induction with
  | nil => exact Nat.le_refl _
  | cons span box length shape hstop hfits ih =>
    have hlength : span.length.toNat ≤ length.toNat := Nat.le_trans (Nat.le_add_left ..) hstop
    exact Nat.mul_le_mul hlength ih

theorem elementCount_whole (shape : Shape) : (whole shape).elementCount = shape.elementCount := by
  rw [elementCount, lengths_whole]

theorem vacant_whole {shape : Shape} (h : 0 < shape.elementCount) :
    (whole shape).vacant = false := by
  rw [Bool.eq_false_iff, ne_eq, vacant_iff, elementCount_whole]
  omega

/-- A region that has elements is the whole array if it has as many as the array. -/
theorem covers_iff_elementCount {box : Box} {shape : Shape} (hfits : box.fits shape)
    (hcount : box.elementCount ≠ 0) :
    box.covers shape ↔ box.elementCount = shape.elementCount := by
  rw [covers_iff]
  refine ⟨fun hwhole => hwhole ▸ elementCount_whole shape, fun hequal => ?_⟩
  induction hfits using fits_induction with
  | nil => rfl
  | cons span box length shape hstop hfits ih =>
    have hproduct : span.length.toNat * box.elementCount = length.toNat * shape.elementCount :=
      hequal
    obtain ⟨hlength, hbox⟩ : span.length.toNat ≠ 0 ∧ box.elementCount ≠ 0 :=
      Nat.mul_ne_zero_iff.mp hcount
    -- no factor of the one product is larger than that of the other
    have hspan : length.toNat ≤ span.length.toNat := by
      refine Nat.le_of_mul_le_mul_right ?_ (Nat.pos_of_ne_zero hbox)
      rw [hproduct]
      exact Nat.mul_le_mul_left _ (elementCount_le hfits)
    rw [Span.stop] at hstop
    have hsame : span.length.toNat = length.toNat := by omega
    have hrest : box.elementCount = shape.elementCount := by
      rw [hsame] at hproduct
      exact Nat.eq_of_mul_eq_mul_left (by omega) hproduct
    obtain rfl := ih hbox hrest
    have hstart : span = Span.whole length := by
      have hzero : span.start = 0 := UInt64.toNat_inj.mp (by rw [UInt64.toNat_zero]; omega)
      rw [Span.whole, ← hzero, ← UInt64.toNat_inj.mp hsame]
    rw [hstart]
    rfl

end Box

end ChunkedArray
