import ChunkedArray.Selection.Basic
import ChunkedArray.Selection.Broadcast

/-!
# ChunkedArray.Selection.ResultShape

The shape of indexing an array with a selection.

Index arrays are broadcast into one block in front of the result, and each of
them uses up one source axis, counted from the first. After that the selectors
are read in order with a cursor over the source axes: an integer drops an axis,
a slice keeps a clamped length, an ellipsis copies the axes that it absorbs.
With padding, the axes that the cursor has not reached follow. Last, the result
positions named by the drop axes are removed.
-/

namespace ChunkedArray

/-- Result positions to remove once a shape has been assembled. -/
abbrev DropAxes := List Nat

namespace Selection

/-- The cursor over the source axes after some selectors, and the lengths that
they contributed to the result. -/
structure Progress where
  lengths : Shape
  cursor : Nat
  deriving DecidableEq, Repr

/-- The block of the result that the index arrays make, and the axes they use. -/
def arrayBlock (selection : Selection) : Except SelectionError Progress := do
  let arrays := indexArrays selection
  if arrays.isEmpty then return ⟨[], 0⟩
  let block ← Shape.broadcast (arrays.map IndexArray.shape)
  return ⟨block, arrays.length⟩

/-- Reads selectors on from a state. `selectors` is the number of selectors in
the whole selection. -/
def advance (shape : Shape) (selectors : Nat) :
    Selection → Progress → Except SelectionError Progress
  | [], state => .ok state
  | .indexArray _ :: rest, state => advance shape selectors rest state
  | .integer _ :: rest, state =>
    advance shape selectors rest { state with cursor := state.cursor + 1 }
  | .slice slice :: rest, state =>
    if slice.stepOrDefault ≠ 1 then .error (.discontiguous (.step slice.stepOrDefault))
    else match shape[state.cursor]? with
      | none => .error (.tooManyIndices selectors shape.length)
      | some length =>
        let count := (slice.onAxis length).count.toUInt64
        advance shape selectors rest ⟨state.lengths ++ [count], state.cursor + 1⟩
  | .ellipsis :: rest, state =>
    let fill := shape.length + 1 - selectors
    let absorbed := (shape.drop state.cursor).take fill
    advance shape selectors rest ⟨state.lengths ++ absorbed, state.cursor + fill⟩

/-- The shape without the positions that `dropped` names. -/
def withoutAxes (dropped : DropAxes) (shape : Shape) : Shape :=
  (shape.zipIdx.filter fun entry => !dropped.contains entry.2).map Prod.fst

/-- The shape of indexing an array of `shape` with the selection. `pad` asks for
the source axes that the selection does not reach. -/
def resultShape (shape : Shape) (selection : Selection) (dropped : DropAxes) (pad : Bool) :
    Except SelectionError Shape := do
  let block ← arrayBlock selection
  let reached ← advance shape selection.length selection block
  let padding := if pad then shape.drop reached.cursor else []
  return withoutAxes dropped (reached.lengths ++ padding)

end Selection

example : Selection.resultShape [4, 5, 6] [.ellipsis, .slice ⟨some 0, some 2, none⟩] [] false
    = .ok [4, 5, 2] := rfl
example : Selection.resultShape [4, 5] [.slice ⟨some 0, some 3, none⟩] [0] true = .ok [5] := rfl

end ChunkedArray
