import ChunkedArray.Proofs.Region.Copy
import ChunkedArray.Proofs.Selection.Ellipsis
import ChunkedArray.Proofs.Shape

/-!
# ChunkedArray.Proofs.Selection.Arrangement

Index arrays, and the shapes that their positions are arranged in.

A declared shape is accepted if it has exactly as many elements as there are positions
(`withShape_eq_ok_iff`), and refused if it has not (`withShape_eq_error_iff`), as long as its
product can be taken in machine words. Where a partial product leaves them, the program stops
without either answer (`withShape_eq_none_iff`). So no shape gets to a selection but an exact one
(`Selection.Made`): expanding an ellipsis leaves the index arrays as they are.
-/

namespace ChunkedArray

namespace IndexArray

variable {positions : List Int64} {shape : Shape} {array : IndexArray} {error : SelectionError}

theorem withShape_eq_none_iff :
    withShape positions shape = none ↔ shape.Reaches UInt64.size := by
  rw [withShape, Option.map_eq_none_iff, Shape.countBelow_eq_none_iff (by decide)]

/-- A product that can be taken is held against the number of positions exactly. -/
theorem withShape_eq_some (h : ¬ shape.Reaches UInt64.size) : withShape positions shape =
    some (if shape.elementCount = positions.length then .ok ⟨positions, shape⟩
      else .error (.indexArrayShape positions.length shape)) := by
  rw [withShape, (Shape.countBelow_eq_some_iff (by decide)).mpr ⟨rfl, h⟩, Option.map_some]

theorem withShape_eq_ok_iff : withShape positions shape = some (.ok array) ↔
    array = ⟨positions, shape⟩ ∧ shape.elementCount = positions.length ∧
      ¬ shape.Reaches UInt64.size := by
  by_cases hreaches : shape.Reaches UInt64.size
  · simp [withShape_eq_none_iff.mpr hreaches, hreaches]
  · rw [withShape_eq_some hreaches]
    split
    next hcount => simp [hcount, hreaches, eq_comm]
    next hcount => simp [hcount]

theorem withShape_eq_error_iff : withShape positions shape = some (.error error) ↔
    error = .indexArrayShape positions.length shape ∧ shape.elementCount ≠ positions.length ∧
      ¬ shape.Reaches UInt64.size := by
  by_cases hreaches : shape.Reaches UInt64.size
  · simp [withShape_eq_none_iff.mpr hreaches, hreaches]
  · rw [withShape_eq_some hreaches]
    split
    next hcount => simp [hcount]
    next hcount => simp [hcount, hreaches, eq_comm]

/-- Index arrays that can be made of positions: with one axis, whose length is a machine word, or
with a declared shape that is accepted. -/
inductive Made : IndexArray → Prop
  | ofList {positions : List Int64} (h : positions.length < UInt64.size) : Made (ofList positions)
  | withShape {positions : List Int64} {shape : Shape} {array : IndexArray}
    (h : withShape positions shape = some (.ok array)) : Made array

theorem Made.elementCount_shape (h : array.Made) : array.shape.elementCount = array.length := by
  cases h with
  | @ofList positions h =>
    simp only [IndexArray.ofList, length, Shape.elementCount_cons, Shape.elementCount_nil,
      Nat.mul_one]
    exact toNat_toUInt64 h
  | withShape h =>
    obtain ⟨rfl, hcount, -⟩ := withShape_eq_ok_iff.mp h
    exact hcount

end IndexArray

namespace Selection

/-- Selections that can be made: of selectors whose index arrays can be made, and by expanding
the ellipsis of a selection. -/
inductive Made : Selection → Prop
  | ofSelectors (selectors : List Selector)
    (h : ∀ array, .indexArray array ∈ selectors → array.Made) : Made selectors
  | expandEllipsis {selection : Selection} (rank : Nat) (h : Made selection) :
    Made (selection.expandEllipsis rank)

theorem Made.indexArrays_made {selection : Selection} (h : selection.Made) :
    ∀ array ∈ selection.indexArrays, array.Made := by
  induction h with
  | ofSelectors selectors h => exact fun array hmem => h array (mem_of_mem_indexArrays hmem)
  | expandEllipsis rank h ih => rwa [Selection.expandEllipsis, indexArrays_replaceEllipsis]

end Selection

/-- **A declared shape is accepted just if it has as many elements as there are positions, and
refused otherwise, unless a partial product of it leaves the machine words**; then the program
stops. The index arrays of every selection have exact shapes. -/
theorem arranged_exactly_or_stopped (positions : List Int64) (shape : Shape)
    (selection : Selection) (hmade : selection.Made) :
    (∀ array, IndexArray.withShape positions shape = some (.ok array) ↔
      array = ⟨positions, shape⟩ ∧ shape.elementCount = positions.length ∧
        ¬ shape.Reaches UInt64.size) ∧
    (∀ error, IndexArray.withShape positions shape = some (.error error) ↔
      error = .indexArrayShape positions.length shape ∧ shape.elementCount ≠ positions.length ∧
        ¬ shape.Reaches UInt64.size) ∧
    (IndexArray.withShape positions shape = none ↔ shape.Reaches UInt64.size) ∧
    ∀ array ∈ selection.indexArrays, array.shape.elementCount = array.length :=
  ⟨fun _ => IndexArray.withShape_eq_ok_iff, fun _ => IndexArray.withShape_eq_error_iff,
    IndexArray.withShape_eq_none_iff,
    fun array hmem => (hmade.indexArrays_made array hmem).elementCount_shape⟩

/-- Six positions in two rows of three, behind an ellipsis. -/
def behindRows : Selection := [.ellipsis, .indexArray ⟨[4, 1, 0, 2, 5, 3], [2, 3]⟩]

theorem behindRows_made : behindRows.Made := by
  refine Selection.Made.ofSelectors _ fun array hmem => ?_
  obtain rfl : array = ⟨[4, 1, 0, 2, 5, 3], [2, 3]⟩ := by simpa [behindRows] using hmem
  have hrows : IndexArray.withShape [4, 1, 0, 2, 5, 3] [2, 3] =
      some (.ok ⟨[4, 1, 0, 2, 5, 3], [2, 3]⟩) := rfl
  exact .withShape hrows

/-- Five positions are not arranged in two rows of three; six of them are, and the rows are kept
where the ellipsis in front of them is expanded. -/
theorem arranged_exactly_or_stopped_rows :
    IndexArray.withShape [4, 1, 0, 2, 5] [2, 3] = some (.error (.indexArrayShape 5 [2, 3])) ∧
      ∀ array ∈ (behindRows.expandEllipsis 3).indexArrays,
        array.shape.elementCount = array.length := by
  obtain ⟨-, hrefused, -, hrows⟩ := arranged_exactly_or_stopped [4, 1, 0, 2, 5] [2, 3]
    (behindRows.expandEllipsis 3) (behindRows_made.expandEllipsis 3)
  exact ⟨(hrefused _).mpr ⟨rfl, by decide, by decide⟩, hrows⟩

/-- A shape of `2 ^ 64` elements is not refused where there is no position at all: the program
stops. -/
theorem not_arranged_exactly :
    ¬ ∀ (positions : List Int64) (shape : Shape), shape.elementCount ≠ positions.length →
      IndexArray.withShape positions shape =
        some (.error (.indexArrayShape positions.length shape)) := by
  intro hrefused
  have hstopped : IndexArray.withShape [] [4294967296, 4294967296] = none := rfl
  cases hstopped.symm.trans (hrefused [] [4294967296, 4294967296] (by decide))

end ChunkedArray
