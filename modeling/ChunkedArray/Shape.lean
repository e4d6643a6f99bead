import ChunkedArray.Text.Listing

/-!
# ChunkedArray.Shape

Shapes: the axis lengths of an array or a chunk, outermost axis first.

A shape admits every 64-bit length on every axis, so the number of elements it
stands for need not fit a machine word. Three counts are kept apart:

* `Shape.elementCount` is the exact product, a natural number;
* `Shape.wrappedCount` is the exact product modulo `2 ^ 64`, which is how the elements
  of a region are counted;
* `Shape.checkedCount` multiplies axis by axis from the left and gives up at the
  first product that leaves 64 bits. A later axis of length zero does not rescue
  it, so the answer can depend on the order of the axes. `Shape.countBelow` is the
  same for any bound.

The product of a chunk or of an index array is taken without a check: the program
stops at the first partial product that leaves the machine word, which is just where
`Shape.countBelow` gives up.
-/

namespace ChunkedArray

/-- The lengths of the axes, outermost first. -/
abbrev Shape := List UInt64

namespace Shape

/-- The exact number of elements: the product of the axis lengths. -/
def elementCount : Shape → Nat
  | [] => 1
  | length :: rest => length.toNat * elementCount rest

@[simp] theorem elementCount_nil : elementCount [] = 1 := rfl

@[simp] theorem elementCount_cons (length : UInt64) (rest : Shape) :
    elementCount (length :: rest) = length.toNat * elementCount rest := rfl

/-- The number of elements modulo `2 ^ 64`. -/
def wrappedCount (shape : Shape) : UInt64 := (elementCount shape).toUInt64

/-- The product of two words, or nothing where it does not fit one. -/
def checkedMul (a b : UInt64) : Option UInt64 :=
  if a.toNat * b.toNat < UInt64.size then some (a * b) else none

/-- The product of the axis lengths taken from the left, or nothing as soon as
one of the partial products leaves 64 bits. -/
def checkedCount (shape : Shape) : Option UInt64 := shape.foldlM checkedMul 1

/-- The product of two numbers, or nothing where it reaches the bound. -/
def mulBelow (bound a b : Nat) : Option Nat := if a * b < bound then some (a * b) else none

/-- The product of the axis lengths taken from the left, or nothing as soon as
one of the partial products reaches the bound. -/
def countBelow (bound : Nat) (shape : Shape) : Option Nat :=
  shape.foldlM (fun count length => mulBelow bound count length.toNat) 1

/-- A shape inside a message. -/
def text (shape : Shape) : String := listing toString (shape.map UInt64.toNat)

example : checkedCount [9223372036854775808, 4, 0] = none := by decide
example : checkedCount [0, 9223372036854775808, 4] = some 0 := by decide
example : wrappedCount [9223372036854775808, 4] = 0 := by decide

end Shape

end ChunkedArray
