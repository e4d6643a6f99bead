import ChunkedArray.Selection.Error

/-!
# ChunkedArray.Selection.Broadcast

The common shape of several index arrays. Shapes are aligned at their last axis:
a shape of lower rank is read as if it had leading axes of length one. On each
axis a length of one gives way to any other; two other lengths have to agree.
-/

namespace ChunkedArray

namespace Shape

/-- The shape with axes of length one in front, up to `rank` axes. -/
def padTo (rank : Nat) (shape : Shape) : Shape :=
  List.replicate (rank - shape.length) 1 ++ shape

/-- The common length of two axes: a length of one gives way to the other. -/
def mergeAxis (a b : UInt64) : Option UInt64 :=
  if a = 1 then some b else if b = 1 ∨ b = a then some a else none

/-- The common shape of two shapes of one rank. -/
def merge : Shape → Shape → Option Shape
  | a :: as, b :: bs => do
    let length ← mergeAxis a b
    let rest ← merge as bs
    return length :: rest
  | _, _ => some []

/-- The largest rank among some shapes. -/
def maxRank (shapes : List Shape) : Nat := (shapes.map List.length).foldl max 0

/-- The common shape of some shapes, aligned at the last axis. No shapes at all
have the shape without axes. -/
def broadcast (shapes : List Shape) : Except SelectionError Shape :=
  let rank := maxRank shapes
  match (shapes.map (padTo rank)).foldlM merge (List.replicate rank 1) with
  | some shape => .ok shape
  | none => .error (.incompatibleBroadcast shapes)

end Shape

example : Shape.broadcast [[2, 1], [3]] = .ok [2, 3] := rfl
example : Shape.broadcast [[3], [2]] = .error (.incompatibleBroadcast [[3], [2]]) := rfl

end ChunkedArray
