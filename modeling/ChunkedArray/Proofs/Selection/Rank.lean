import ChunkedArray.Proofs.Selection.Axes
import ChunkedArray.Proofs.Selection.Broadcast
import Mathlib.Data.List.Induction

/-!
# ChunkedArray.Proofs.Selection.Rank

How many axes a selection keeps.

The index arrays make one block in front, which has the largest rank among them. Behind it
every slice keeps an axis and so does every axis that the ellipsis absorbs, while an integer
and an index array each use one up. Counting along a walk gives the rank of the shape of a
selection in closed form: with padding (`Fits.exists_padded`) every axis counts that is not
used up; without padding and without an ellipsis only the slices do (`Fits.exists_view`).
-/

namespace ChunkedArray

namespace Selection

/-- The rank of the block that the index arrays make: the largest one among them. -/
def blockRank (selection : Selection) : Nat :=
  Shape.maxRank ((indexArrays selection).map IndexArray.shape)

/-- The rank of a selection on an array of `rank` axes, with the axes that it does not reach. -/
def paddedRank (selection : Selection) (rank : Nat) : Nat :=
  blockRank selection + rank - selection.countP Selector.isInteger -
    selection.countP Selector.isIndexArray

/-- The rank of a selection on an array of `rank` axes, without those that it does not reach. -/
def viewRank (selection : Selection) (rank : Nat) : Nat :=
  if .ellipsis ∈ selection then paddedRank selection rank
  else blockRank selection + selection.countP Selector.isSlice

variable {shape : Shape} {fill : Nat} {selection : Selection} {state reached : Progress}

/-! ### Dropped axes -/

/-- Only places of the shape can be dropped, each of them once. -/
theorem length_withoutAxes (dropped : DropAxes) (shape : Shape) :
    (withoutAxes dropped shape).length =
      shape.length - (List.range shape.length).countP (· ∈ dropped) := by
  have hsum : (withoutAxes dropped shape).length +
      (List.range shape.length).countP (· ∈ dropped) = shape.length := by
    induction shape using List.reverseRecOn with
    | nil => rfl
    | append_singleton shape length ih =>
      rw [withoutAxes_concat, List.length_append, List.length_append, List.length_singleton,
        List.range_succ, List.countP_append]
      by_cases hmem : shape.length ∈ dropped
      · simp [hmem]
        omega
      · simp [hmem]
        omega
  omega

/-! ### Counting along a walk -/

theorem countP_takesAxis (selection : Selection) : selection.countP Selector.takesAxis =
    selection.countP Selector.isInteger + selection.countP Selector.isSlice := by
  induction selection with
  | nil => rfl
  | cons selector rest ih =>
    cases selector <;> simp [List.countP_cons, Selector.isSlice, ih] <;> omega

theorem length_indexArrays (selection : Selection) :
    (indexArrays selection).length = selection.countP Selector.isIndexArray :=
  List.length_filterMap_eq_countP

/-- Slices and ellipses keep axes, as long as the cursor stays on the array. -/
theorem Walks.length_lengths (h : Walks shape fill selection state reached)
    (hroom : reached.cursor ≤ shape.length) :
    reached.lengths.length = state.lengths.length + selection.countP Selector.isSlice +
      fill * selection.countP Selector.isEllipsis := by
  induction h with
  | nil => simp
  | @cons selector rest state next reached hread hrest ih =>
    have hcursor := hrest.cursor_eq
    rw [ih hroom]
    cases hread with
    | indexArray | integer => simp [Selector.isSlice, Selector.isEllipsis]
    | slice =>
      simp [List.countP_cons, Selector.isSlice, Selector.isEllipsis]
      omega
    | ellipsis =>
      have hfill : min fill (shape.length - state.cursor) = fill := by
        simp only at hcursor
        omega
      simp [List.countP_cons, Selector.isSlice, Selector.isEllipsis, Nat.mul_add, hfill]
      omega

/-! ### The rank of a selection -/

theorem exists_arrayBlock
    (harrays : Shape.Broadcastable ((indexArrays selection).map IndexArray.shape)) :
    ∃ block, arrayBlock selection = .ok block ∧ block.lengths.length = blockRank selection := by
  obtain ⟨lengths, hlengths, hrank⟩ := Shape.exists_broadcast harrays
  cases hnone : indexArrays selection with
  | nil =>
    refine ⟨⟨[], 0⟩, arrayBlock_nil hnone, ?_⟩
    rw [blockRank, hnone]
    rfl
  | cons array arrays =>
    refine ⟨⟨lengths, (indexArrays selection).length⟩, ?_, hrank⟩
    rw [hnone] at hlengths
    rw [arrayBlock, hnone]
    show (Shape.broadcast ((array :: arrays).map IndexArray.shape) >>= _) = _
    rw [hlengths]
    rfl

namespace Fits

variable (h : selection.Fits shape.length)
  (harrays : Shape.Broadcastable ((indexArrays selection).map IndexArray.shape))

include h harrays

/-- Where the walk over a selection ends. -/
theorem exists_reached :
    ∃ block reached, arrayBlock selection = .ok block ∧
      Walks shape (ellipsisFill selection shape.length) selection block reached ∧
      reached.lengths.length = blockRank selection + selection.countP Selector.isSlice +
        ellipsisFill selection shape.length * selection.countP Selector.isEllipsis ∧
      reached.cursor = selection.countP Selector.isIndexArray +
        (selection.countP Selector.isInteger + selection.countP Selector.isSlice) +
        ellipsisFill selection shape.length * selection.countP Selector.isEllipsis ∧
      reached.cursor ≤ shape.length := by
  obtain ⟨block, hblock, hrank⟩ := exists_arrayBlock harrays
  obtain ⟨reached, hwalk⟩ := h.exists_walk hblock
  have hcursor := hwalk.cursor_eq
  rw [cursor_of_arrayBlock hblock] at hcursor
  have hroom : reached.cursor ≤ shape.length := hcursor ▸ room_le h.rank h.ellipses
  rw [length_indexArrays, countP_takesAxis] at hcursor
  exact ⟨block, reached, hblock, hwalk, hrank ▸ hwalk.length_lengths hroom, hcursor, hroom⟩

/-- **With padding, every axis counts that no integer and no index array uses up.** -/
theorem exists_padded : ∃ result, resultShape shape selection [] true = .ok result ∧
    result.length = paddedRank selection shape.length := by
  obtain ⟨block, reached, hblock, hwalk, hlengths, hcursor, hroom⟩ := h.exists_reached harrays
  refine ⟨_, resultShape_eq_ok.mpr ⟨block, reached, hblock, hwalk, rfl⟩, ?_⟩
  rw [Progress.padded, List.length_append, List.length_drop, hlengths, paddedRank]
  omega

/-- **Without padding, an ellipsis makes no axis go, and without one only slices count.** -/
theorem exists_view : ∃ result, resultShape shape selection [] false = .ok result ∧
    result.length = viewRank selection shape.length := by
  obtain ⟨block, reached, hblock, hwalk, hlengths, hcursor, hroom⟩ := h.exists_reached harrays
  refine ⟨reached.lengths, ?_, ?_⟩
  · refine resultShape_eq_ok_iff.mpr ⟨block, reached, hblock, hwalk, ?_⟩
    rw [withoutAxes_nil, if_neg Bool.false_ne_true, List.append_nil]
  · have hcounts := length_eq_counts selection
    rw [length_indexArrays, countP_takesAxis] at hcounts
    rw [hlengths, viewRank]
    split
    next hmem =>
      have hone : selection.countP Selector.isEllipsis = 1 :=
        Nat.le_antisymm h.ellipses (List.countP_pos_iff.mpr ⟨_, hmem, rfl⟩)
      rw [hone] at hcounts hcursor ⊢
      rw [paddedRank]
      rw [ellipsisFill] at hcursor ⊢
      omega
    next hmem =>
      rw [countP_isEllipsis_of_not_mem hmem, Nat.mul_zero, Nat.add_zero]

end Fits

end Selection

end ChunkedArray
