/-!
# ChunkedArray.Deflate.Damage

What can be wrong with compressed data. A reader stops at the first fault in the
order of the bits, so data that ends too soon is only reported where nothing
before its end is wrong. It is told apart whether the data ends inside the deflated
blocks or in what stands around them.
-/

namespace ChunkedArray

/-- Why compressed data cannot be read. -/
inductive Damage
  /-- The data ends inside its header, or before all that stands behind the blocks. -/
  | endOfFile
  /-- The data ends before the last block does. -/
  | endOfBlocks
  /-- The data does not begin like a compressed file. -/
  | badHeader
  /-- A text in the header is too long. -/
  | longText
  /-- A block does not follow the format. -/
  | badBlock
  /-- A check value or the size is not that of the data. -/
  | mismatch
  deriving DecidableEq, Repr

/-- The value, or the damage where there is none. -/
def Damage.unless (damage : Damage) {α : Type} : Option α → Except Damage α
  | some value => .ok value
  | none => .error damage

end ChunkedArray
