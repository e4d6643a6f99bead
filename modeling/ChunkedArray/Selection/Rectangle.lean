import ChunkedArray.Selection.Basic

/-!
# ChunkedArray.Selection.Rectangle

Selections as rectangles: one slice for each selector.

An integer becomes the slice of its one position. An index array has to be a
single ascending run of positions, or one position over and over; any other list
has gaps. Two or more selectors that are all index arrays select points, not a
rectangle, even where each of them is a run; gaps are reported first.
-/

namespace ChunkedArray

namespace IndexArray

/-- The differences of successive positions, clamped into the range of
positions. A clamped difference is neither zero nor one, so it reads as a gap. -/
def differences (positions : List Int64) : List Int64 :=
  List.zipWith (fun a b => Int64.ofIntClamp (b.toInt - a.toInt)) positions positions.tail

/-- The slice that selects the positions of an index array, if they are one
ascending run or one repeated position. -/
def toSlice (array : IndexArray) : Except SelectionError Slice :=
  match array.positions with
  | [] => .ok (.unit 0 0)
  | first :: rest =>
    let steps := differences array.positions
    if steps.all (· == 1) || steps.all (· == 0) then
      .ok (.unit first (nextPosition (rest.getLastD first)))
    else .error (.discontiguous (.gaps steps))

end IndexArray

/-- The slice of one selector. -/
def Selector.toSlice : Selector → Except SelectionError Slice
  | integer position => .ok (.single position)
  | slice range => .ok range
  | ellipsis => .ok .full
  | indexArray list => list.toSlice

/-- The slices of a selection, one for each selector. Where all of them are slices, nothing is
checked. -/
def Selection.toSlices (selection : Selection) : Except SelectionError (List Slice) :=
  if selection.allSlices then .ok (selection.filterMap Selector.slice?)
  else do
    let slices ← selection.mapM Selector.toSlice
    if 1 < selection.length ∧ selection.all Selector.isIndexArray then
      throw (.discontiguous .vectorized)
    return slices

example : Selection.toSlices [.indexArray (.ofList [2, 3, 4])] = .ok [.unit 2 5] := rfl
example : Selection.toSlices [.indexArray (.ofList [5, 5, 5]), .slice .full]
    = .ok [.unit 5 6, .full] := rfl
example : Selection.toSlices [.indexArray (.ofList [0, 2]), .indexArray (.ofList [0, 1])]
    = .error (.discontiguous (.gaps [2])) := rfl

end ChunkedArray
