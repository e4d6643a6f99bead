import ChunkedArray.Json.Number

/-!
# ChunkedArray.Json.Parser

Reading JSON text. The grammar is strict: no comments, no commas at the end of a
list, no control characters in strings, and nothing but blanks behind the value.
An escape in a string may stand for half of a character outside the basic plane
only if the other half follows. Lists and objects may stand inside each other only
so deep.

Each function returns the text behind what it read. The functions for values call
each other with a bound that shrinks; as each of them uses up text before it comes
back to itself, twice the length of the text is enough.
-/

namespace ChunkedArray.Json

/-- The text behind leading blanks. -/
def skipBlanks (text : List Char) : List Char :=
  text.dropWhile fun char => char = ' ' || char = '\t' || char = '\n' || char = '\r'

/-! ### Strings -/

/-- The value of a hexadecimal digit. -/
def hexDigit? (char : Char) : Option Nat :=
  if char.isDigit then some (char.toNat - '0'.toNat)
  else if 'a' ≤ char ∧ char ≤ 'f' then some (char.toNat - 'a'.toNat + 10)
  else if 'A' ≤ char ∧ char ≤ 'F' then some (char.toNat - 'A'.toNat + 10)
  else none

/-- The number of four hexadecimal digits. -/
def hexWord : List Char → Option (Nat × List Char)
  | a :: b :: c :: d :: rest => do
    let digits ← [a, b, c, d].mapM hexDigit?
    return (digits.foldl (fun value digit => 16 * value + digit) 0, rest)
  | _ => none

/-- The character of one or two numbered escapes, the first of which has been
opened. -/
def numbered (text : List Char) : Option (Char × List Char) := do
  let (unit, rest) ← hexWord text
  if 0xDC00 ≤ unit ∧ unit ≤ 0xDFFF then none
  else if 0xD800 ≤ unit ∧ unit ≤ 0xDBFF then
    match rest with
    | '\\' :: 'u' :: rest =>
      let (low, rest) ← hexWord rest
      if 0xDC00 ≤ low ∧ low ≤ 0xDFFF then
        some (Char.ofNat (0x10000 + (unit - 0xD800) * 0x400 + (low - 0xDC00)), rest)
      else none
    | _ => none
  else some (Char.ofNat unit, rest)

/-- The character that an escape of one letter stands for. -/
def lettered : Char → Option Char
  | '"' => some '"'
  | '\\' => some '\\'
  | '/' => some '/'
  | 'b' => some '\x08'
  | 'f' => some '\x0c'
  | 'n' => some '\n'
  | 'r' => some '\r'
  | 't' => some '\t'
  | _ => none

/-- The rest of a string whose opening quote has been read. -/
def stringRest : Nat → List Char → Option (List Char × List Char)
  | 0, _ => none
  | _, [] => none
  | _, '"' :: rest => some ([], rest)
  | fuel + 1, '\\' :: 'u' :: rest => do
    let (char, rest) ← numbered rest
    let (chars, rest) ← stringRest fuel rest
    return (char :: chars, rest)
  | fuel + 1, '\\' :: letter :: rest => do
    let char ← lettered letter
    let (chars, rest) ← stringRest fuel rest
    return (char :: chars, rest)
  | fuel + 1, char :: rest =>
    if char = '\\' || char.toNat < 0x20 then none
    else do
      let (chars, rest) ← stringRest fuel rest
      return (char :: chars, rest)

/-- A string whose opening quote has been read. -/
def string? (text : List Char) : Option (String × List Char) := do
  let (chars, rest) ← stringRest (text.length + 1) text
  return (String.ofList chars, rest)

/-! ### Values -/

/-- The value if the text begins with its word. -/
def word? (word : String) (value : Json) (text : List Char) : Option (Json × List Char) :=
  (word.toList.isPrefixOf? text).map fun rest => (value, rest)

/-- The most lists and objects that may be open at once. -/
def deepest : Nat := 127

mutual

/-- The value at the front of a text, in which `depth` more lists and objects may
be open at once. -/
def value? : Nat → Nat → List Char → Option (Json × List Char)
  | 0, _, _ => none
  | fuel + 1, depth, text =>
    match skipBlanks text, depth with
    | '[' :: _, 0 | '\x7b' :: _, 0 => none
    | '[' :: rest, depth + 1 =>
      match skipBlanks rest with
      | ']' :: rest => some (.array [], rest)
      | rest => (items? fuel depth rest).map fun found => (.array found.1, found.2)
    | '\x7b' :: rest, depth + 1 =>
      match skipBlanks rest with
      | '\x7d' :: rest => some (.object [], rest)
      | rest => (members? fuel depth rest).map fun found => (.object found.1, found.2)
    | '"' :: rest, _ => (string? rest).map fun found => (.string found.1, found.2)
    | text, _ =>
      (word? "null" .null text).or <| (word? "true" (.bool true) text).or <|
        (word? "false" (.bool false) text).or (number? text)

/-- The items of a list up to its closing bracket. -/
def items? : Nat → Nat → List Char → Option (List Json × List Char)
  | 0, _, _ => none
  | fuel + 1, depth, text => do
    let (item, rest) ← value? fuel depth text
    match skipBlanks rest with
    | ']' :: rest => return ([item], rest)
    | ',' :: rest =>
      let (items, rest) ← items? fuel depth rest
      return (item :: items, rest)
    | _ => none

/-- The members of an object up to its closing brace. -/
def members? : Nat → Nat → List Char → Option (List (String × Json) × List Char)
  | 0, _, _ => none
  | fuel + 1, depth, text =>
    match skipBlanks text with
    | '"' :: rest => do
      let (name, rest) ← string? rest
      match skipBlanks rest with
      | ':' :: rest =>
        let (value, rest) ← value? fuel depth rest
        match skipBlanks rest with
        | '\x7d' :: rest => return ([(name, value)], rest)
        | ',' :: rest =>
          let (members, rest) ← members? fuel depth rest
          return ((name, value) :: members, rest)
        | _ => none
      | _ => none
    | _ => none

end

/-- The value of a text that holds one value and blanks around it. -/
def parse (text : List Char) : Option Json := do
  let (value, rest) ← value? (2 * text.length + 2) deepest text
  if skipBlanks rest = [] then some value else none

end ChunkedArray.Json
