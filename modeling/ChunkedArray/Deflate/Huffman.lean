import ChunkedArray.Deflate.Bits

/-!
# ChunkedArray.Deflate.Huffman

Canonical prefix codes. A code is given by the lengths of its code words: among
the words of one length the smaller symbols come first, and shorter words come
before longer ones. So a code is known once the symbols of each length are known,
and a word is read by walking down the lengths with the number of open nodes to
the left of it. Some codes may have hardly any words, so that bits can be read that
begin no word.
-/

namespace ChunkedArray.Deflate

/-- A canonical code: the symbols with words of length one, two and so on. -/
structure Huffman where
  levels : List (List Nat)
  deriving DecidableEq, Repr

namespace Huffman

/-- The largest length of a word. -/
def maxLength : Nat := 15

/-- The symbols whose words have a given length. -/
def symbolsOfLength (lengths : List Nat) (length : Nat) : List Nat :=
  (lengths.zipIdx.filter fun entry => entry.1 = length).map Prod.snd

/-- The number of open nodes below the last level, if no level has more words
than nodes. -/
def openNodes : Nat → List (List Nat) → Option Nat
  | nodes, [] => some nodes
  | nodes, level :: levels =>
    if level.length ≤ 2 * nodes then openNodes (2 * nodes - level.length) levels else none

/-- The levels of the words with the given lengths; a symbol of length zero has no
word. -/
def levelsOf (lengths : List Nat) : List (List Nat) :=
  (List.range' 1 maxLength).map (symbolsOfLength lengths)

/-- The code with the given lengths, whose words have to use up all nodes. -/
def complete? (lengths : List Nat) : Option Huffman :=
  let levels := levelsOf lengths
  if openNodes 1 levels = some 0 then some ⟨levels⟩ else none

/-- The code with the given lengths. Its words have to use up all nodes, unless
there is no word at all, or a single one of length one. -/
def ofLengths? (lengths : List Nat) : Option Huffman :=
  let levels := levelsOf lengths
  let longer := levels.tail.flatten
  if longer = [] ∧ (levels.head?.getD []).length ≤ 1 then some ⟨levels⟩ else complete? lengths

/-- Reads a word from the levels that are left; `left` nodes of the level above
stand to the left of it. Bits that begin no word are refused as soon as no longer
word is left. -/
def readLevels : List (List Nat) → Nat → Bits → Except Damage (Nat × Bits)
  | [], _, _ => .error .badBlock
  | _ :: _, _, [] => .error .endOfBlocks
  | level :: levels, left, bit :: bits =>
    let place := 2 * left + bit.toNat
    match level[place]? with
    | some symbol => .ok (symbol, bits)
    | none =>
      if levels.all List.isEmpty then .error .badBlock
      else readLevels levels (place - level.length) bits

/-- The symbol of the next word, and the bits behind it. -/
def read (code : Huffman) (bits : Bits) : Except Damage (Nat × Bits) :=
  readLevels code.levels 0 bits

example : (complete? [1, 2, 2]).map (·.read [true, false, true]) = some (.ok (1, [true])) := rfl
example : (ofLengths? [0, 1, 0]).isSome ∧ (ofLengths? [0, 2, 0]).isNone := by decide +kernel

end Huffman

end ChunkedArray.Deflate
