import ChunkedArray.Region.Box
import ChunkedArray.Store.ByteRange

/-!
# ChunkedArray.Region.Runs

The decomposition of a box into runs of elements that lie side by side in the
row-major order of its array.

The axes are taken from the outermost to the innermost. As long as the axes
further in are spanned whole, an axis makes one run of all its positions; the
first axis further out makes a copy of the inner runs for each of its positions.
All runs have one length.
-/

namespace ChunkedArray

/-- Runs of one length, in elements. -/
structure Runs where
  /-- The number of elements of each run. -/
  length : Nat
  /-- The places of the first elements, in row-major order. -/
  starts : List Nat
  deriving DecidableEq, Repr

namespace Box

/-- The runs of a box that fits the shape. -/
def runs : Box → Shape → Runs
  | span :: box, _ :: shape =>
    let inner := runs box shape
    let volume := Shape.elementCount shape
    if covers box shape then ⟨span.length.toNat * inner.length, [span.start.toNat * volume]⟩
    else
      let shifted (position : Nat) := inner.starts.map (position * volume + ·)
      ⟨inner.length, span.positions.flatMap shifted⟩
  | _, _ => ⟨1, [0]⟩

/-- The runs of the box as ranges of bytes, for elements of `width` bytes.
Offsets and lengths are taken in 64-bit arithmetic. -/
def byteRanges (box : Box) (shape : Shape) (width : Nat) : List ByteRange :=
  let runs := box.runs shape
  let length := (runs.length * width).toUInt64
  runs.starts.map fun start => .fromStart (start * width).toUInt64 (some length)

@[simp] theorem runs_nil (shape : Shape) : runs [] shape = ⟨1, [0]⟩ := by
  cases shape <;> rfl

theorem runs_whole (shape : Shape) : runs (whole shape) shape = ⟨shape.elementCount, [0]⟩ := by
  induction shape with
  | nil => rfl
  | cons length shape ih =>
    have h : covers (shape.map Span.whole) shape = true := by simp [covers_iff, whole]
    simp only [whole] at ih
    simp [whole, runs, h, ih, Span.whole]

example : runs [⟨0, 2⟩, ⟨1, 1⟩, ⟨0, 4⟩] [2, 3, 4] = ⟨4, [4, 16]⟩ := by decide
example : runs [⟨1, 2⟩, ⟨0, 4⟩] [3, 4] = ⟨8, [4]⟩ := by decide

end Box

end ChunkedArray
