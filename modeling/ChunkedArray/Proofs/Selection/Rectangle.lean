import ChunkedArray.Proofs.Selection.Run

/-!
# ChunkedArray.Proofs.Selection.Rectangle

Which selections are rectangles, and why the others are refused.

A selection is a rectangle if all its index arrays are contiguous and they are not all of
several selectors. Just these selections become slices, and the slices select what the
selectors list; every other selection is refused for the first index array with gaps, or else
for the points that it selects (`toSlices_rectangle`).
-/

namespace ChunkedArray

/-! ### Contiguous index arrays -/

namespace IndexArray

variable {array : IndexArray} {first : Int64} {rest : List Int64}

/-- A contiguous array is the slice of a run with the same positions. -/
theorem Contiguous.exists_run (h : array.Contiguous) (hpositions : array.positions = first :: rest) :
    ∃ rest', IsRun (first :: rest') ∧ array.toSlice = .ok (runSlice first rest') ∧
      ∀ position, position ∈ first :: rest' ↔ position ∈ array.positions := by
  have hslice : array.toSlice = .ok (runSlice first rest) := h.toSlice_eq hpositions
  rw [Contiguous, hpositions] at h
  rcases h with hrun | hrepeated
  · exact ⟨rest, isRun_iff.mpr hrun, hslice, by simp [hpositions]⟩
  · have hfirst := eq_first_of_exactDifferences hrepeated
    have hlast : rest.getLastD first = first := hfirst _ List.getLastD_mem_cons
    refine ⟨[], .singleton first, ?_, fun position => ?_⟩
    · rw [hslice, runSlice, hlast]
      rfl
    · rw [hpositions, List.mem_singleton]
      exact ⟨fun heq => heq ▸ List.mem_cons_self, hfirst position⟩

end IndexArray

/-! ### The slices of selectors -/

/-- What becomes of a selector: a slice stays as it is and an ellipsis is a whole axis. The
slice of an integer or of an index array selects the listed positions and no others, on every
axis that has all of them. -/
def Selector.BecomesSlice : Selector → Slice → Prop
  | .slice range, result => result = range
  | .ellipsis, result => result = .full
  | selector, result => ∀ length : UInt64, length.toNat ≤ Int64.maxValue.toInt.toNat →
      OnAxis length.toNat selector.listed → ∀ position : Nat,
        position ∈ (result.onAxis length).positions ↔
          ∃ listed ∈ selector.listed, listed.toInt = position

namespace IndexArray

variable {array : IndexArray}

theorem Contiguous.exists_slice (h : array.Contiguous) :
    ∃ slice, array.toSlice = .ok slice ∧ (Selector.indexArray array).BecomesSlice slice := by
  cases hpositions : array.positions with
  | nil =>
    refine ⟨.unit 0 0, by simp only [toSlice, hpositions], fun length _ _ position => ?_⟩
    rw [Slice.positions_onAxis rfl]
    simp [Selector.listed, hpositions, Slice.onAxis, Slice.unit, Slice.clampBound]
  | cons first rest =>
    obtain ⟨rest', hrun, hslice, hsame⟩ := h.exists_run hpositions
    refine ⟨runSlice first rest', hslice, fun length hlength haxis position => ?_⟩
    have haxis' : OnAxis length.toNat (first :: rest') :=
      fun listed hmem => haxis listed ((hsame listed).mp hmem)
    rw [hrun.mem_positions hlength haxis' position]
    simp only [hsame, Selector.listed]

end IndexArray

namespace Selector

variable {selector : Selector} {slice : Slice} {error : SelectionError}

/-- A selector has a slice unless it is an index array with gaps. -/
theorem exists_slice (h : ∀ array, selector = .indexArray array → array.Contiguous) :
    ∃ slice, selector.toSlice = .ok slice ∧ selector.BecomesSlice slice := by
  cases selector with
  | slice range => exact ⟨range, rfl, rfl⟩
  | ellipsis => exact ⟨.full, rfl, rfl⟩
  | indexArray array => exact (h array rfl).exists_slice
  | integer position =>
    exact ⟨runSlice position [], rfl, fun _ hlength haxis =>
      IsRun.mem_positions (.singleton position) hlength haxis⟩

theorem toSlice_indexArray (h : selector.toSlice = .ok slice) :
    ∀ array, selector = .indexArray array → array.Contiguous := by
  rintro array rfl
  by_contra hgaps
  cases (IndexArray.toSlice_of_not_contiguous hgaps).symm.trans h

theorem becomesSlice (h : selector.toSlice = .ok slice) : selector.BecomesSlice slice := by
  obtain ⟨other, hother, hbecomes⟩ := exists_slice (toSlice_indexArray h)
  obtain rfl := Except.ok.inj (hother.symm.trans h)
  exact hbecomes

theorem exists_gaps (h : selector.toSlice = .error error) :
    ∃ array, selector = .indexArray array ∧ ¬ array.Contiguous ∧
      error = .discontiguous (.gaps array.gaps) := by
  cases selector with
  | integer | slice | ellipsis => cases h
  | indexArray array =>
    have hgaps : ¬ array.Contiguous := by
      intro hcontiguous
      obtain ⟨slice, hslice, -⟩ := hcontiguous.exists_slice
      cases hslice.symm.trans h
    have hslice := (IndexArray.toSlice_of_not_contiguous hgaps).symm.trans h
    exact ⟨array, rfl, hgaps, (Except.error.inj hslice).symm⟩

end Selector

/-! ### Rectangles -/

namespace Selection

/-- Each index array is contiguous, and not all of several selectors are index arrays. -/
structure Rectangular (selection : Selection) : Prop where
  contiguous : ∀ array, .indexArray array ∈ selection → array.Contiguous
  mixed : ¬ (1 < selection.length ∧ ∀ selector ∈ selection, selector.isIndexArray)

/-- Why a selection is no rectangle: the first index array with gaps comes before the points
that several index arrays select. -/
inductive NoRectangle : Selection → SelectionError → Prop
  | gaps (before after : Selection) (array : IndexArray)
      (hbefore : ∀ other, .indexArray other ∈ before → other.Contiguous)
      (harray : ¬ array.Contiguous) :
      NoRectangle (before ++ .indexArray array :: after) (.discontiguous (.gaps array.gaps))
  | points (selection : Selection)
      (hall : ∀ array, .indexArray array ∈ selection → array.Contiguous)
      (hpoints : 1 < selection.length ∧ ∀ selector ∈ selection, selector.isIndexArray) :
      NoRectangle selection (.discontiguous .vectorized)

variable {selection : Selection} {slices : List Slice} {error : SelectionError}

theorem NoRectangle.not_rectangular (h : selection.NoRectangle error) :
    ¬ selection.Rectangular := by
  intro hrectangular
  cases h with
  | gaps before after array _ harray =>
    exact harray (hrectangular.contiguous array (by simp))
  | points _ _ hpoints => exact hrectangular.mixed hpoints

theorem contiguous_of_slices
    (h : List.Forall₂ (fun selector slice => selector.toSlice = .ok slice) selection slices) :
    ∀ array, .indexArray array ∈ selection → array.Contiguous := by
  intro array hmem
  obtain ⟨place, hplace⟩ := List.mem_iff_getElem?.mp hmem
  obtain ⟨slice, -, hslice⟩ := exists_of_forall₂ h hplace
  exact Selector.toSlice_indexArray hslice array rfl

theorem rectangular_of_toSlices (h : selection.toSlices = .ok slices) :
    selection.Rectangular := by
  obtain ⟨hslices, hmixed⟩ := toSlices_eq_ok.mp h
  exact ⟨contiguous_of_slices hslices, by simpa using hmixed⟩

theorem noRectangle_of_toSlices (h : selection.toSlices = .error error) :
    selection.NoRectangle error := by
  rw [toSlices_eq, Outcome.bind_eq_error] at h
  rcases h with hslices | ⟨slices, hslices, hpoints⟩
  · obtain ⟨before, selector, after, rfl, hbefore, hselector⟩ :=
      Outcome.exists_of_mapM_eq_error hslices
    obtain ⟨array, rfl, harray, rfl⟩ := Selector.exists_gaps hselector
    refine .gaps before after array (fun other hmem => ?_) harray
    obtain ⟨slice, hslice⟩ := hbefore _ hmem
    exact Selector.toSlice_indexArray hslice other rfl
  · have hall := contiguous_of_slices (Outcome.mapM_eq_ok.mp hslices)
    split at hpoints
    next hsome =>
      obtain rfl := Except.error.inj hpoints
      exact .points selection hall (by simpa using hsome)
    next => cases hpoints

/-- **Just the rectangles become slices.** On success there is one slice for each selector, with
what the selector lists. A selection that is refused is no rectangle, for the reason that its
error gives. -/
theorem toSlices_rectangle (selection : Selection) :
    ((∃ slices, selection.toSlices = .ok slices) ↔ selection.Rectangular) ∧
      (∀ slices, selection.toSlices = .ok slices →
        List.Forall₂ Selector.BecomesSlice selection slices) ∧
      ∀ error, selection.toSlices = .error error → selection.NoRectangle error := by
  refine ⟨⟨?_, fun hrectangular => ?_⟩, ?_, fun _ => noRectangle_of_toSlices⟩
  · rintro ⟨slices, hslices⟩
    exact rectangular_of_toSlices hslices
  · cases hslices : selection.toSlices with
    | ok slices => exact ⟨slices, rfl⟩
    | error error => exact absurd hrectangular (noRectangle_of_toSlices hslices).not_rectangular
  · intro slices hslices
    exact (toSlices_eq_ok.mp hslices).1.imp fun _ _ => Selector.becomesSlice

/-- The farthest positions in front of a run: their clamped difference is a gap, which is
reported before the points. -/
theorem toSlices_rectangle_farthest :
    NoRectangle [.indexArray (.ofList [Int64.minValue, Int64.maxValue]),
        .indexArray (.ofList [3, 4])] (.discontiguous (.gaps [Int64.maxValue])) ∧
      Rectangular [.indexArray (.ofList [3, 4]), .ellipsis, .integer Int64.minValue] := by
  have hgaps := (toSlices_rectangle [.indexArray (.ofList [Int64.minValue, Int64.maxValue]),
    .indexArray (.ofList [3, 4])]).2.2 (.discontiguous (.gaps [Int64.maxValue])) rfl
  have hrectangle := (toSlices_rectangle
    [.indexArray (.ofList [3, 4]), .ellipsis, .integer Int64.minValue]).1.mp ⟨_, rfl⟩
  exact ⟨hgaps, hrectangle⟩

end Selection

end ChunkedArray
