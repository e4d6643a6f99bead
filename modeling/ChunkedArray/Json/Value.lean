/-!
# ChunkedArray.Json.Value

JSON values. The members of an object keep the order and the repetitions of the
text. Of the numbers only the integers keep their value, since no setting is any
other number.
-/

namespace ChunkedArray

/-- A JSON value. -/
inductive Json where
  | null
  | bool (value : Bool)
  | integer (value : Int)
  /-- A number with a fraction or an exponent, or a negative zero. -/
  | fractional
  | string (text : String)
  | array (items : List Json)
  | object (members : List (String × Json))
  deriving Repr, Inhabited

namespace Json

/-- The last value under a name among some members. -/
def member? (members : List (String × Json)) (name : String) : Option Json :=
  members.reverse.lookup name

/-- The name of an object that has only one, and the last value under it. -/
def onlyMember? (members : List (String × Json)) : Option (String × Json) :=
  match members.reverse with
  | [] => none
  | last :: others => if others.all (·.1 == last.1) then some last else none

end Json

end ChunkedArray
