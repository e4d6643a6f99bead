import ChunkedArray.Shape

/-!
# ChunkedArray.Region.Box

Boxes: the rectangular regions that requests read and write.

A `Box` has one `Span` for each axis of an array. It is vacant where a span is
empty, it covers a shape where it is the whole array of that shape (`whole`), and
it fits a shape where it has the rank of the shape and no span passes the end of
its axis. A covering box fits; a box without axes is never vacant and has one
element.
-/

namespace ChunkedArray

/-- Successive positions along one axis. -/
structure Span where
  start : UInt64
  length : UInt64
  deriving DecidableEq, Repr

namespace Span

/-- The span from one bound up to another; it is empty where they are reversed. -/
def ofBounds (start stop : UInt64) : Span := ⟨start, if start ≤ stop then stop - start else 0⟩

/-- All positions of an axis. -/
def whole (length : UInt64) : Span := ⟨0, length⟩

/-- The position after the last one. -/
def stop (span : Span) : Nat := span.start.toNat + span.length.toNat

/-- The positions of the span in ascending order. -/
def positions (span : Span) : List Nat := List.range' span.start.toNat span.length.toNat

@[simp] theorem length_positions (span : Span) :
    span.positions.length = span.length.toNat := by
  simp [positions]

theorem mem_positions {span : Span} {position : Nat} :
    position ∈ span.positions ↔ span.start.toNat ≤ position ∧ position < span.stop := by
  simp [positions, stop]

/-- A span inside a message. -/
def text (span : Span) : String :=
  let start := span.start.toNat
  let stop := span.stop
  s!"{start}..{stop}"

end Span

/-- A rectangular region, one span for each axis. -/
abbrev Box := List Span

namespace Box

/-- The lengths of the spans. -/
def lengths (box : Box) : Shape := box.map Span.length

/-- The region of a whole array. -/
def whole (shape : Shape) : Box := shape.map Span.whole

/-- Is one of the spans empty? -/
def vacant (box : Box) : Bool := box.any fun span => span.length == 0

/-- Is the box the whole array of a shape? -/
def covers (box : Box) (shape : Shape) : Bool := box == whole shape

/-- Has the box the rank of the shape, and does no span pass its axis? -/
def fits : Box → Shape → Bool
  | [], [] => true
  | span :: box, length :: shape => span.stop ≤ length.toNat && fits box shape
  | _, _ => false

/-- The exact number of elements in the box. -/
def elementCount (box : Box) : Nat := Shape.elementCount box.lengths

/-- The number of elements in 64-bit arithmetic. -/
def wrappedCount (box : Box) : UInt64 := Shape.wrappedCount box.lengths

/-- A box inside a message. -/
def text (box : Box) : String := listing Span.text box

@[simp] theorem lengths_whole (shape : Shape) : lengths (whole shape) = shape := by
  induction shape with
  | nil => rfl
  | cons length shape ih =>
    simp only [lengths, whole, List.map_cons] at ih ⊢
    rw [ih]; rfl

theorem covers_iff {box : Box} {shape : Shape} : covers box shape ↔ box = whole shape := by
  simp [covers]

theorem fits_whole (shape : Shape) : fits (whole shape) shape := by
  induction shape with
  | nil => rfl
  | cons length shape ih =>
    have h : fits (shape.map Span.whole) shape = true := ih
    simp [whole, fits, Span.whole, Span.stop, h]

end Box

example : Box.fits [⟨1, 2⟩] [3] = true := by decide
example : Box.fits [⟨1, 2⟩] [2] = false := by decide
example : Box.text [.ofBounds 1 3, .ofBounds 4 2] = "[1..3, 4..4]" := by decide +kernel

end ChunkedArray
