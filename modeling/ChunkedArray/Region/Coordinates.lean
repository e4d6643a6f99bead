import ChunkedArray.Bytes
import ChunkedArray.Region.Box

/-!
# ChunkedArray.Region.Coordinates

The elements of a box one at a time: its coordinates in row-major order, the last
axis moving fastest, and the place of a coordinate in the row-major order of a
whole array. This is the pointwise reading of a region, which the copying of runs
is measured against.
-/

namespace ChunkedArray

/-- A position on each axis. -/
abbrev Coordinate := List Nat

/-- The coordinates of a box in row-major order. -/
def Box.coordinates : Box → List Coordinate
  | [] => [[]]
  | span :: box => span.positions.flatMap fun position =>
      (coordinates box).map (position :: ·)

/-- The place of a coordinate in the row-major order of an array. -/
def Shape.linearIndex : Shape → Coordinate → Nat
  | _ :: shape, position :: coordinate =>
    position * Shape.elementCount shape + linearIndex shape coordinate
  | _, _ => 0

/-- The bytes of the element of `width` bytes at a place. -/
def Bytes.element (width index : Nat) (bytes : Bytes) : Bytes :=
  (bytes.drop (index * width)).take width

theorem Box.length_coordinates (box : Box) :
    box.coordinates.length = box.elementCount := by
  induction box with
  | nil => rfl
  | cons span box ih =>
    simp [coordinates, List.length_flatMap, ih, elementCount, lengths, List.map_const']

example : Box.coordinates [⟨1, 2⟩, ⟨0, 2⟩] = [[1, 0], [1, 1], [2, 0], [2, 1]] := by decide
example : Shape.linearIndex [3, 2] [2, 1] = 5 := by decide

end ChunkedArray
