import ChunkedArray.Selection.IndexArray
import ChunkedArray.Selection.Slice

/-!
# ChunkedArray.Selection.Basic

Index expressions: a `Selection` is a list of selectors, one for each leading
axis.

An ellipsis stands for as many whole axes as the other selectors leave over.
Only the first one of a selection absorbs axes (`Selection.expandEllipsis`);
later ones absorb nothing and disappear.
-/

namespace ChunkedArray

/-- What is selected along one axis. -/
inductive Selector
  /-- One position; its axis disappears from the result. -/
  | integer (position : Int64)
  /-- A slice of the axis. -/
  | slice (range : Slice)
  /-- All axes that the other selectors leave over. -/
  | ellipsis
  /-- An explicit list of positions. -/
  | indexArray (list : IndexArray)
  deriving DecidableEq, Repr

namespace Selector

/-- Is the selector a slice? -/
def isSlice : Selector → Bool
  | slice _ => true
  | _ => false

/-- Is the selector an ellipsis? -/
def isEllipsis : Selector → Bool
  | ellipsis => true
  | _ => false

/-- The slice of a selector that is one. -/
def slice? : Selector → Option Slice
  | slice range => some range
  | _ => none

/-- The index array of a selector that is one. -/
def indexArray? : Selector → Option IndexArray
  | indexArray list => some list
  | _ => none

/-- Is the selector an index array? -/
def isIndexArray (selector : Selector) : Bool := selector.indexArray?.isSome

end Selector

/-- An index expression, one selector for each leading axis. -/
abbrev Selection := List Selector

namespace Selection

/-- Does the selection consist of slices only? -/
def allSlices (selection : Selection) : Bool := selection.all Selector.isSlice

/-- The index arrays of a selection, in order. -/
def indexArrays (selection : Selection) : List IndexArray :=
  selection.filterMap Selector.indexArray?

/-- How many axes an ellipsis of the selection stands for on an array of `rank`
axes: those that the other selectors leave over. -/
def ellipsisFill (selection : Selection) (rank : Nat) : Nat := rank + 1 - selection.length

/-- The selection with its first ellipsis replaced by `fill` whole axes, and
later ones left out. -/
def replaceEllipsis (fill : Nat) : Selection → Selection
  | [] => []
  | .ellipsis :: rest =>
    List.replicate fill (.slice .full) ++ rest.filter (!·.isEllipsis)
  | selector :: rest => selector :: replaceEllipsis fill rest

/-- The selection for an array of `rank` axes, without ellipses. -/
def expandEllipsis (selection : Selection) (rank : Nat) : Selection :=
  replaceEllipsis (ellipsisFill selection rank) selection

end Selection

example : Selection.expandEllipsis [.integer 1, .ellipsis] 3
    = [.integer 1, .slice .full, .slice .full] := by decide
example : Selection.expandEllipsis [.ellipsis, .integer 0, .integer 0] 2
    = [.integer 0, .integer 0] := by decide

end ChunkedArray
