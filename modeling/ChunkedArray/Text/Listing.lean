/-!
# ChunkedArray.Text.Listing

The written form of a list inside a message: items between square brackets, a
comma and a blank between neighbours. Every shape, box and list of positions
that a message quotes goes through `listing`, so there is one place that knows
the brackets.
-/

namespace ChunkedArray

/-- The text of a list whose items are written by `item`. -/
def listing {α : Type} (item : α → String) (items : List α) : String :=
  "[" ++ ", ".intercalate (items.map item) ++ "]"

example : listing toString [1, 2] = "[1, 2]" := by decide
example : listing toString ([] : List Nat) = "[]" := by decide

end ChunkedArray
