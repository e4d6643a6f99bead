import ChunkedArray.Deflate.Huffman

/-!
# ChunkedArray.Deflate.Inflate

Decompression of deflated data. The data is a row of blocks, each either stored
as it is or written in two prefix codes: one for literal bytes and the lengths of
repetitions, one for their distances. A repetition may reach back before the
first byte, where it finds zeros. Every symbol and every block uses up bits, so the
number of bits bounds the number of steps.
-/

namespace ChunkedArray.Deflate

/-! ### Repetitions -/

/-- The lengths that length symbols begin at, with the number of bits that add
to them. -/
def lengthTable : List (Nat × Nat) :=
  [(3, 0), (4, 0), (5, 0), (6, 0), (7, 0), (8, 0), (9, 0), (10, 0), (11, 1), (13, 1), (15, 1),
    (17, 1), (19, 2), (23, 2), (27, 2), (31, 2), (35, 3), (43, 3), (51, 3), (59, 3), (67, 4),
    (83, 4), (99, 4), (115, 4), (131, 5), (163, 5), (195, 5), (227, 5), (258, 0)]

/-- The distances that distance symbols begin at, with the number of bits that
add to them. -/
def distanceTable : List (Nat × Nat) :=
  [(1, 0), (2, 0), (3, 0), (4, 0), (5, 1), (7, 1), (9, 2), (13, 2), (17, 3), (25, 3), (33, 4),
    (49, 4), (65, 5), (97, 5), (129, 6), (193, 6), (257, 7), (385, 7), (513, 8), (769, 8),
    (1025, 9), (1537, 9), (2049, 10), (3073, 10), (4097, 11), (6145, 11), (8193, 12),
    (12289, 12), (16385, 13), (24577, 13)]

/-- The value of a symbol of a table, read with the bits that add to it. -/
def readEntry (table : List (Nat × Nat)) (symbol : Nat) (bits : Bits) :
    Except Damage (Nat × Bits) := do
  let (base, extra) ← Damage.badBlock.unless table[symbol]?
  let (added, rest) ← bits.read extra
  return (base + added, rest)

/-- The byte that was written so many bytes ago. Before the first byte there are
zeros, since a window of zeros stands before the data. -/
def lookBack (distance : Nat) (out : Array UInt8) : UInt8 :=
  if distance ≤ out.size then (out[out.size - distance]?).getD 0 else 0

/-- Repeats so many bytes that were written so many bytes ago. -/
def repeatBack (distance : Nat) : Nat → Array UInt8 → Array UInt8
  | 0, out => out
  | count + 1, out => repeatBack distance count (out.push (lookBack distance out))

/-! ### Blocks -/

/-- The two codes of a block. -/
structure BlockCodes where
  literals : Huffman
  distances : Huffman

/-- The symbol that ends a block. -/
def endOfBlock : Nat := 256

/-- Reads the symbols of a block up to its end. -/
def readSymbols (codes : BlockCodes) :
    Nat → Bits → Array UInt8 → Except Damage (Array UInt8 × Bits)
  | 0, _, _ => .error .badBlock
  | fuel + 1, bits, out => do
    let (symbol, rest) ← codes.literals.read bits
    if symbol < endOfBlock then
      readSymbols codes fuel rest (out.push (UInt8.ofNat symbol))
    else if symbol = endOfBlock then
      return (out, rest)
    else
      let (length, rest) ← readEntry lengthTable (symbol - (endOfBlock + 1)) rest
      let (place, rest) ← codes.distances.read rest
      let (distance, rest) ← readEntry distanceTable place rest
      readSymbols codes fuel rest (repeatBack distance length out)

/-- The lengths of the words for literals where the codes are fixed. -/
def fixedLengths : List Nat :=
  List.replicate 144 8 ++ List.replicate 112 9 ++ List.replicate 24 7 ++ List.replicate 8 8

/-- The codes of a block that does not bring its own. -/
def fixedCodes : Option BlockCodes := do
  let literals ← Huffman.complete? fixedLengths
  let distances ← Huffman.complete? (List.replicate 32 5)
  return ⟨literals, distances⟩

/-- The order in which the lengths of the code for lengths are written. -/
def lengthOrder : List Nat := [16, 17, 18, 0, 8, 7, 9, 6, 10, 5, 11, 4, 12, 3, 13, 2, 14, 1, 15]

/-- So many numbers of three bits. -/
def readTriples : Nat → Bits → Except Damage (List Nat × Bits)
  | 0, bits => .ok ([], bits)
  | count + 1, bits => do
    let (value, rest) ← bits.read 3
    let (values, rest) ← readTriples count rest
    return (value :: values, rest)

/-- Reads lengths of words in the code for lengths until there are `count`, the
last one first. -/
def readLengths (code : Huffman) (count : Nat) :
    Nat → Bits → List Nat → Except Damage (List Nat × Bits)
  | 0, _, _ => .error .badBlock
  | fuel + 1, bits, lengths =>
    if count ≤ lengths.length then
      if lengths.length = count then .ok (lengths, bits) else .error .badBlock
    else do
      let (symbol, rest) ← code.read bits
      let again (value : Nat) (least extra : Nat) := do
        let (more, rest) ← rest.read extra
        readLengths code count fuel rest (List.replicate (least + more) value ++ lengths)
      match symbol with
      | 16 => again (← Damage.badBlock.unless lengths.head?) 3 2
      | 17 => again 0 3 3
      | 18 => again 0 11 7
      | length => readLengths code count fuel rest (length :: lengths)

/-- The most symbols that a code for literals and lengths may list. -/
def mostLiterals : Nat := 286

/-- The most symbols that a code for distances may list. -/
def mostDistances : Nat := 30

/-- Reads the codes that a block brings. -/
def readCodes (bits : Bits) : Except Damage (BlockCodes × Bits) := do
  let (literals, rest) ← bits.read 5
  let (distances, rest) ← rest.read 5
  let (written, rest) ← rest.read 4
  let literals := literals + 257
  let distances := distances + 1
  if mostLiterals < literals ∨ mostDistances < distances then throw .badBlock
  let (triples, rest) ← readTriples (written + 4) rest
  let pairs := lengthOrder.zip triples
  let code ← Damage.badBlock.unless <| Huffman.complete? <|
    (List.range 19).map fun symbol => (pairs.lookup symbol).getD 0
  let (reversed, rest) ← readLengths code (literals + distances) (rest.length + 1) rest []
  let lengths := reversed.reverse
  let literalCode ← Damage.badBlock.unless (Huffman.ofLengths? (lengths.take literals))
  let distanceCode ← Damage.badBlock.unless (Huffman.ofLengths? (lengths.drop literals))
  return (⟨literalCode, distanceCode⟩, rest)

/-- Reads a block that is stored as it is. -/
def readStored (bits : Bits) (out : Array UInt8) : Except Damage (Array UInt8 × Bits) := do
  let (size, rest) ← bits.align.read 16
  let (inverted, rest) ← rest.read 16
  if size + inverted ≠ 0xFFFF then throw .badBlock
  let (octets, rest) ← rest.readBytes size
  return (out ++ octets, rest)

/-- Reads one block of a kind. -/
def readBlock (kind : Nat) (bits : Bits) (out : Array UInt8) :
    Except Damage (Array UInt8 × Bits) :=
  match kind with
  | 0 => readStored bits out
  | 1 => do readSymbols (← Damage.badBlock.unless fixedCodes) (bits.length + 1) bits out
  | 2 => do
    let (codes, rest) ← readCodes bits
    readSymbols codes (rest.length + 1) rest out
  | _ => .error .badBlock

/-- Reads blocks up to the last one. -/
def readBlocks : Nat → Bits → Array UInt8 → Except Damage (Array UInt8 × Bits)
  | 0, _, _ => .error .badBlock
  | fuel + 1, bits, out => do
    let (last, rest) ← bits.read 1
    let (kind, rest) ← rest.read 2
    let (out, rest) ← readBlock kind rest out
    if last = 1 then return (out, rest) else readBlocks fuel rest out

/-- The data that some bytes hold deflated, and the bytes behind them. -/
def inflate (bytes : Bytes) : Except Damage (Bytes × Bytes) := do
  let bits := Bits.ofBytes bytes
  let (out, rest) ← readBlocks (bits.length + 1) bits #[]
  return (out.toList, bytes.drop (bytes.length - rest.length / 8))

/-! ### Stored data -/

/-- The most bytes of a stored block. -/
def largestBlock : Nat := 65535

/-- One stored block of at most `largestBlock` bytes. -/
def storedBlock (last : Bool) (octets : Bytes) : Bytes :=
  UInt8.ofNat last.toNat :: Bytes.littleEndian 2 octets.length
    ++ Bytes.littleEndian 2 (largestBlock - octets.length) ++ octets

/-- Data in so many full stored blocks and a last one. -/
def storedBlocks : Nat → Bytes → Bytes
  | 0, octets => storedBlock true octets
  | count + 1, octets =>
    storedBlock false (octets.take largestBlock) ++ storedBlocks count (octets.drop largestBlock)

/-- Data deflated without compression. -/
def deflateStored (octets : Bytes) : Bytes := storedBlocks (octets.length / largestBlock) octets

example : inflate (deflateStored [1, 2, 3] ++ [9]) = .ok ([1, 2, 3], [9]) := rfl
example : (inflate [75, 76, 132, 0, 0]).toOption = some (List.replicate 8 97, []) := by
  decide +kernel

end ChunkedArray.Deflate
