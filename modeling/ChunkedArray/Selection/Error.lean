import ChunkedArray.Shape

/-!
# ChunkedArray.Selection.Error

Why a selection cannot be turned into shapes and slices. Each cause carries what
its message quotes; `SelectionError.message` is the only place with wording.
-/

namespace ChunkedArray

/-- Why a selection is not one rectangular run. -/
inductive Discontiguity
  /-- The successive differences of an index array are neither all one nor all
  zero. -/
  | gaps (differences : List Int64)
  /-- Every axis is indexed by an array, which selects points and no rectangle. -/
  | vectorized
  /-- A slice moves by a step other than one. -/
  | step (stride : Int64)
  deriving DecidableEq, Repr

/-- Why a selection is refused. -/
inductive SelectionError
  /-- The selection is not a rectangular run. -/
  | discontiguous (cause : Discontiguity)
  /-- The two views of a request have different ranks. -/
  | collapsedDimension (outShape chunkShape : Shape)
  /-- The shapes of the index arrays have no common broadcast. -/
  | incompatibleBroadcast (shapes : List Shape)
  /-- There are more selectors than axes. -/
  | tooManyIndices (selectors rank : Nat)
  /-- The declared shape of an index array does not hold its positions. -/
  | indexArrayShape (length : Nat) (shape : Shape)
  deriving DecidableEq, Repr

/-- The wording of a discontiguity. -/
def Discontiguity.message : Discontiguity → String
  | gaps differences =>
    let quoted := listing toString (differences.map Int64.toInt)
    s!"index array is not a contiguous run (differences {quoted})"
  | vectorized => "vindexing with only contiguous index arrays is not supported"
  | step stride =>
    let quoted := toString stride.toInt
    s!"slice step {quoted} is not supported, only unit steps are"

namespace SelectionError

/-- The wording of a selection error. -/
def message : SelectionError → String
  | discontiguous cause => "discontiguous selection: " ++ cause.message
  | collapsedDimension outShape chunkShape =>
    let out := outShape.text
    let chunk := chunkShape.text
    s!"collapsed dimension: output view has shape {out} but chunk view has shape {chunk}"
  | incompatibleBroadcast shapes =>
    let quoted := listing Shape.text shapes
    s!"index arrays with shapes {quoted} cannot be broadcast together"
  | tooManyIndices selectors rank =>
    s!"too many indices: {selectors} selectors for an array of rank {rank}"
  | indexArrayShape length shape =>
    let quoted := shape.text
    s!"index array of length {length} does not fit shape {quoted}"

/-- Is the error a discontiguity? -/
def isDiscontiguous : SelectionError → Bool
  | discontiguous _ => true
  | _ => false

/-- Is the error a collapsed dimension? -/
def isCollapsedDimension : SelectionError → Bool
  | collapsedDimension .. => true
  | _ => false

end SelectionError

end ChunkedArray
