import ChunkedArray.Proofs.Outcome
import ChunkedArray.Proofs.Region.Runs
import ChunkedArray.Region.Resolve

/-!
# ChunkedArray.Proofs.Region.Resolve

A box that slices resolve to fits its array (`fits_of_ofSlices`), and its coordinates
are those that the slices select (`coordinates_ofSlices`): on each axis the positions
that the slice of the axis visits, or all positions where no slice is given.
-/

namespace ChunkedArray

/-- The coordinates that some slices select of an array, in row-major order. Axes without
a slice are taken whole. -/
def selectedCoordinates : List Slice → Shape → List Coordinate
  | slice :: slices, length :: shape => (slice.onAxis length).positions.flatMap fun position =>
      (selectedCoordinates slices shape).map (position :: ·)
  | [], length :: shape => (List.range length.toNat).flatMap fun position =>
      (selectedCoordinates [] shape).map (position :: ·)
  | _, [] => [[]]

namespace Slice

theorem positions_onAxis {slice : Slice} {length : UInt64} (h : (slice.onAxis length).step = 1) :
    (slice.onAxis length).positions = List.range' (slice.onAxis length).start
      (max (slice.onAxis length).stop (slice.onAxis length).start
        - (slice.onAxis length).start) := by
  have hone : Int64.toInt 1 = 1 := rfl
  have hcount : (slice.onAxis length).count = max (slice.onAxis length).stop
      (slice.onAxis length).start - (slice.onAxis length).start := by
    simp only [Stretch.count, h, hone, Int.toNat_one, Nat.div_one]
    split <;> omega
  rw [Stretch.positions, hcount, h, List.range'_eq_map_range, hone]
  simp

/-- The span of a slice ends on the axis, and has the positions that the slice visits. -/
theorem toSpan_eq_ok {slice : Slice} {length : UInt64} {span : Span}
    (h : slice.toSpan length = .ok span) :
    span.stop ≤ length.toNat ∧ span.positions = (slice.onAxis length).positions := by
  have hstart := Nat.le_trans (onAxis_start_le slice length) (measurable_le length)
  have hstop := Nat.le_trans (onAxis_stop_le slice length) (measurable_le length)
  have hlength := length.toNat_lt
  simp only [toSpan] at h
  split at h
  next hstep =>
    obtain rfl := Except.ok.inj h
    have hspan : ∀ position, position ≤ length.toNat → position.toUInt64.toNat = position := by
      intro position hposition
      simp
      omega
    rw [positions_onAxis hstep]
    simp only [Span.stop, Span.positions]
    rw [hspan _ hstart, hspan _ (by omega)]
    exact ⟨by omega, rfl⟩
  next => cases h

end Slice

namespace Box

theorem coordinates_whole (shape : Shape) :
    (whole shape).coordinates = selectedCoordinates [] shape := by
  induction shape with
  | nil => rfl
  | cons length shape ih =>
    simp only [whole, List.map_cons] at ih ⊢
    rw [coordinates, selectedCoordinates, ih, Span.positions, Span.whole, List.range_eq_range']
    rfl

/-- A box that slices resolve to, on the axes of its array. -/
theorem ofAxes_eq_ok {slices : List Slice} {shape : Shape} {box : Box}
    (h : ofAxes slices shape = .ok box) :
    box.fits shape ∧ box.coordinates = selectedCoordinates slices shape := by
  induction shape generalizing slices box with
  | nil =>
    have hnil : ofAxes slices [] = .ok [] := by cases slices <;> rfl
    obtain rfl : [] = box := Except.ok.inj (hnil.symm.trans h)
    refine ⟨rfl, ?_⟩
    cases slices <;> rfl
  | cons length shape ih =>
    cases slices with
    | nil =>
      obtain rfl : whole (length :: shape) = box := Except.ok.inj h
      exact ⟨fits_whole _, coordinates_whole _⟩
    | cons slice slices =>
      simp only [ofAxes, Outcome.bind_eq_ok, Outcome.pure_eq_ok] at h
      obtain ⟨span, hspan, rest, hrest, rfl⟩ := h
      obtain ⟨hstop, hpositions⟩ := Slice.toSpan_eq_ok hspan
      obtain ⟨hfits, hcoordinates⟩ := ih hrest
      refine ⟨fits_cons.mpr ⟨hstop, hfits⟩, ?_⟩
      rw [coordinates, selectedCoordinates, hpositions, hcoordinates]

theorem ofSlices_eq_ok {slices : List Slice} {shape : Shape} {box : Box}
    (h : ofSlices slices shape = .ok box) :
    slices.length ≤ shape.length ∧ ofAxes slices shape = .ok box := by
  unfold ofSlices at h
  split at h
  next => cases h
  next hrank => exact ⟨Nat.le_of_not_lt hrank, h⟩

/-- Slices resolve to a box that fits the array. -/
theorem fits_of_ofSlices {slices : List Slice} {shape : Shape} {box : Box}
    (h : ofSlices slices shape = .ok box) : box.fits shape :=
  (ofAxes_eq_ok (ofSlices_eq_ok h).2).1

/-- **The coordinates of the box are those that the slices select.** -/
theorem coordinates_ofSlices {slices : List Slice} {shape : Shape} {box : Box}
    (h : ofSlices slices shape = .ok box) :
    box.coordinates = selectedCoordinates slices shape :=
  (ofAxes_eq_ok (ofSlices_eq_ok h).2).2

end Box

end ChunkedArray
