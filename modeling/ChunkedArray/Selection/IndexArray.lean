import ChunkedArray.Selection.Error

/-!
# ChunkedArray.Selection.IndexArray

Explicit lists of positions along one axis. The positions are kept flat in
row-major order; the shape matters only where several index arrays are broadcast
together.
-/

namespace ChunkedArray

/-- Positions along one axis, arranged in a shape. -/
structure IndexArray where
  positions : List Int64
  shape : Shape
  deriving DecidableEq, Repr

namespace IndexArray

/-- The one-dimensional index array of some positions. -/
def ofList (positions : List Int64) : IndexArray :=
  ⟨positions, [positions.length.toUInt64]⟩

/-- The positions arranged in a declared shape. The product of the shape is taken in
64 bits; where it leaves them the program stops, and there is no answer. -/
def withShape (positions : List Int64) (shape : Shape) :
    Option (Except SelectionError IndexArray) :=
  (shape.countBelow UInt64.size).map fun expected =>
    if expected = positions.length then .ok ⟨positions, shape⟩
    else .error (.indexArrayShape positions.length shape)

/-- The number of positions. -/
def length (array : IndexArray) : Nat := array.positions.length

/-- Does the array list no position? -/
def isEmpty (array : IndexArray) : Bool := array.positions.isEmpty

end IndexArray

end ChunkedArray
