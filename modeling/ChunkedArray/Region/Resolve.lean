import ChunkedArray.Error
import ChunkedArray.Selection.Slice

/-!
# ChunkedArray.Region.Resolve

Lists of slices as boxes. A list may be shorter than the rank of the array; the
axes that it does not mention are taken whole, at their full length.
-/

namespace ChunkedArray

/-- The positions of an axis that a slice selects. A slice that selects nothing
has its start as the start of the span; only unit steps are taken. -/
def Slice.toSpan (slice : Slice) (length : UInt64) : Outcome Span :=
  let stretch := slice.onAxis length
  if stretch.step = 1 then
    .ok ⟨stretch.start.toUInt64, (max stretch.stop stretch.start - stretch.start).toUInt64⟩
  else .error (.invalidSlice length stretch.step)

namespace Box

/-- The spans of slices on the axes of a shape of at least as many axes. -/
def ofAxes : List Slice → Shape → Outcome Box
  | slice :: slices, length :: shape => do
    let span ← slice.toSpan length
    let box ← ofAxes slices shape
    return span :: box
  | _, shape => .ok (whole shape)

/-- The box that some slices select of an array. -/
def ofSlices (slices : List Slice) (shape : Shape) : Outcome Box :=
  if shape.length < slices.length then
    .error (.selection (.tooManyIndices slices.length shape.length))
  else ofAxes slices shape

@[simp] theorem ofAxes_nil (shape : Shape) : ofAxes [] shape = .ok (whole shape) := by
  cases shape <;> rfl

end Box

example : Box.ofSlices [.unit 1 3] [4, 5] = .ok [⟨1, 2⟩, ⟨0, 5⟩] := rfl
example : Box.ofSlices [⟨none, none, some 2⟩] [4] = .error (.invalidSlice 4 2) := rfl

end ChunkedArray
