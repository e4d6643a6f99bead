/-!
# ChunkedArray.Selection.Slice

Slices `start:stop:step` with optional bounds, and what they select on an axis
of a given length.

`Slice.onAxis` measures a slice against an axis: a bound below zero counts from
the end of the axis, every bound is clamped into the axis, and an absent bound
means the end of the axis on its side. The result, a `Stretch`, has natural
bounds; `Stretch.count` is the number of positions it visits and
`Stretch.positions` the positions themselves.

An axis may be longer than the largest position; it is then measured as if it
ended at that position (`measurable`).
-/

namespace ChunkedArray

/-- A slice `start:stop:step`; an absent part takes its default. -/
structure Slice where
  start : Option Int64 := none
  stop : Option Int64 := none
  step : Option Int64 := none
  deriving DecidableEq, Repr, Inhabited

/-- A slice measured against an axis. The bounds are positions on the axis, and
`stop` may lie below `start`: nothing is selected then. The step is the one of
the slice, whatever its sign. -/
structure Stretch where
  start : Nat
  stop : Nat
  step : Int64
  deriving DecidableEq, Repr

/-- The position after `position`; the largest position is followed by itself. -/
def nextPosition (position : Int64) : Int64 := Int64.ofIntClamp (position.toInt + 1)

/-- The length up to which positions can tell the elements of an axis apart. -/
def measurable (length : UInt64) : Nat := min length.toNat Int64.maxValue.toInt.toNat

theorem measurable_le (length : UInt64) : measurable length ≤ length.toNat :=
  Nat.min_le_left ..

namespace Slice

/-- The slice `:`, which selects a whole axis. -/
def full : Slice := {}

/-- The slice `start:stop:1`. -/
def unit (start stop : Int64) : Slice := ⟨some start, some stop, some 1⟩

/-- The slice that selects one position counted from the start of an axis. -/
def single (position : Int64) : Slice := unit position (nextPosition position)

/-- The step, which is one where none is given. -/
def stepOrDefault (slice : Slice) : Int64 := slice.step.getD 1

/-- A bound as a position in `[0, length]`: below zero it counts from the end. -/
def clampBound (length : Nat) (bound : Int64) : Nat :=
  if bound.toInt < 0 then (bound.toInt + length).toNat else min bound.toInt.toNat length

theorem clampBound_le (length : Nat) (bound : Int64) : clampBound length bound ≤ length := by
  unfold clampBound
  split
  · omega
  · exact Nat.min_le_right ..

/-- The slice measured against an axis of `length` elements. -/
def onAxis (slice : Slice) (length : UInt64) : Stretch :=
  let size := measurable length
  { start := slice.start.elim 0 (clampBound size)
    stop := slice.stop.elim size (clampBound size)
    step := slice.stepOrDefault }

theorem onAxis_start_le (slice : Slice) (length : UInt64) :
    (slice.onAxis length).start ≤ measurable length := by
  cases h : slice.start with
  | none => simp [onAxis, h]
  | some bound => simpa [onAxis, h] using clampBound_le _ bound

theorem onAxis_stop_le (slice : Slice) (length : UInt64) :
    (slice.onAxis length).stop ≤ measurable length := by
  cases h : slice.stop with
  | none => simp [onAxis, h]
  | some bound => simpa [onAxis, h] using clampBound_le _ bound

@[simp] theorem onAxis_step (slice : Slice) (length : UInt64) :
    (slice.onAxis length).step = slice.stepOrDefault := rfl

end Slice

namespace Stretch

/-- How many positions the stretch visits: none for a step that does not move
forward, else the span divided by the step, rounded up. -/
def count (stretch : Stretch) : Nat :=
  if stretch.stop ≤ stretch.start ∨ stretch.step.toInt ≤ 0 then 0
  else (stretch.stop - stretch.start + stretch.step.toInt.toNat - 1) / stretch.step.toInt.toNat

/-- Does the stretch visit no position? -/
def isEmpty (stretch : Stretch) : Bool := stretch.count == 0

/-- The positions of the stretch, in the order of its visit. -/
def positions (stretch : Stretch) : List Nat :=
  (List.range stretch.count).map fun i => stretch.start + i * stretch.step.toInt.toNat

@[simp] theorem length_positions (stretch : Stretch) :
    stretch.positions.length = stretch.count := by
  simp [positions]

end Stretch

example : (Slice.onAxis ⟨some (-3), none, none⟩ 10) = ⟨7, 10, 1⟩ := by decide
example : (Slice.onAxis ⟨some 0, some 5, some 2⟩ 10).positions = [0, 2, 4] := by decide
example : (Slice.onAxis ⟨some 4, some 1, none⟩ 5).isEmpty = true := by decide

end ChunkedArray
