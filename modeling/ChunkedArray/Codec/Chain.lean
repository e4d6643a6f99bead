import ChunkedArray.Chunk.Size
import ChunkedArray.Codec.Basic
import ChunkedArray.Codec.ByteOrder
import ChunkedArray.Codec.Stage
import ChunkedArray.Region.Runs

/-!
# ChunkedArray.Codec.Chain

Codec chains: one codec that turns elements into bytes, and a row of stages
behind it.

Before anything else a chain checks the chunk: its element type has to be known,
no axis may have length zero, and the fill value has to be one element. The
elements are then written as they are, in a byte order; elements of one byte need
none. Elements of varying size cannot be held as bytes here, so a chunk of them
is only ever refused.
-/

namespace ChunkedArray

/-- The type of the elements of a chunk that a chain can take. -/
def Chunk.checkedType (chunk : Chunk) : Outcome ElementType := do
  let refuse (fault : ChunkFault) : Outcome ElementType := .error (.invalidChunk chunk.key fault)
  match ElementType.ofName? chunk.elementType with
  | none => refuse (.unsupportedType chunk.elementType)
  | some type =>
    if chunk.shape.any (· == 0) then refuse .zeroAxis
    else if type.size?.any (· != chunk.elementSize) then
      refuse (.incompatibleFill chunk.fill type.name)
    else return type

/-- The codec of a chain that turns elements into bytes. -/
inductive ElementCodec
  /-- The elements as they are, in a byte order. -/
  | bytes (order : Option ByteOrder)
  /-- Elements of varying size, each behind its length. -/
  | items
  deriving DecidableEq, Repr

namespace ElementCodec

/-- The name of the form that the codec gives the elements. -/
def form : ElementCodec → String
  | bytes _ => "bytes"
  | items => "vlen_v2"

/-- Does the codec take elements of the type? -/
def takes : ElementCodec → ElementType → Bool
  | bytes _, type => type.size?.isSome
  | items, type => type.size?.isNone

/-- Checks that elements of `size` bytes have a byte order if they need one. -/
def checkOrder (order : Option ByteOrder) (size : Nat) : Except CodecFault Unit :=
  if order.isNone ∧ 1 < size then .error (.missingByteOrder size) else .ok ()

/-- Elements with the low byte first in the byte order of the codec, and back. -/
def arrange (order : Option ByteOrder) (type : ElementType) (bytes : Bytes) : Bytes :=
  (order.getD .little).arrange type bytes

/-- Checks that bytes are as many as a chunk takes. -/
def checkSize (expected : Nat) (bytes : Bytes) : Except CodecFault Unit :=
  if bytes.length = expected then .ok ()
  else .error (.decodedSize bytes.length expected.toUInt64)

/-- Elements of `size` bytes in the byte order of the codec, and back, if they have
the byte order that they need. -/
def convert (order : Option ByteOrder) (type : ElementType) (size : Nat) (bytes : Bytes) :
    Except CodecFault Bytes := do
  checkOrder order size
  return arrange order type bytes

/-- The bytes behind so many items, each of which stands behind its length. -/
def behindItems : Nat → Bytes → Option Bytes
  | 0, rest => some rest
  | count + 1, rest =>
    let size := Bytes.ofLittleEndian (rest.take 4)
    if 4 + size ≤ rest.length then behindItems count (rest.drop (4 + size)) else none

/-- Checks the form of `count` items: their number, then one item after another. -/
def checkItems (count : Nat) (bytes : Bytes) : Except CodecFault Unit :=
  let least := 4 * (count + 1)
  let written := Bytes.ofLittleEndian (bytes.take 4)
  if bytes.length < least then .error (.decodedSize bytes.length least.toUInt64)
  else if written ≠ count then .error (.itemCount count written)
  else if (behindItems count (bytes.drop 4)).isNone then .error .brokenItem
  else .ok ()

end ElementCodec

/-- A codec for elements with stages behind it. -/
structure CodecChain where
  elements : ElementCodec
  stages : List Stage
  /-- Are checksums verified? -/
  validates : Bool
  deriving DecidableEq, Repr

namespace CodecChain

/-- The fault of a type that the codec for elements does not take. -/
def unsupported (chain : CodecChain) (type : ElementType) : CodecFault :=
  .unsupportedType type.name chain.elements.form

/-- The encoded form of elements of `size` bytes that take `expected` bytes together. -/
def encodeElements (chain : CodecChain) (type : ElementType) (size expected : Nat)
    (decoded : Bytes) : Except CodecFault Bytes := do
  ElementCodec.checkSize expected decoded
  match chain.elements with
  | .bytes order =>
    let bytes ← ElementCodec.convert order type size decoded
    return Stage.encodeAll chain.stages bytes
  | .items => throw .fixedSized

/-- The elements of `size` bytes that some encoded bytes hold, if they take `expected` bytes
together. -/
def decodeElements (chain : CodecChain) (order : Option ByteOrder) (type : ElementType)
    (size expected : Nat) (encoded : Bytes) : Except CodecFault Bytes := do
  let bytes ← Stage.decodeAll chain.validates chain.stages encoded
  ElementCodec.checkSize expected bytes
  ElementCodec.convert order type size bytes

/-- The fault of a chunk whose elements vary in size. -/
def variableLength (chunk : Chunk) : AccessError := .invalidChunk chunk.key .variableLength

/-- The encoded form of a chunk. -/
def encode (chain : CodecChain) (chunk : Chunk) (decoded : Bytes) : Outcome Bytes := do
  let type ← chunk.checkedType
  let count ← chunk.counted
  match type.size? with
  | none => throw (.codec chunk.key .variableSized)
  | some size =>
    let expected ← chunk.sizeOf count
    (chain.encodeElements type size expected decoded).mapError (.codec chunk.key)

/-- The decoded form of a chunk. Of elements that vary in size only the form is checked. -/
def decode (chain : CodecChain) (chunk : Chunk) (encoded : Bytes) : Outcome Bytes := do
  let type ← chunk.checkedType
  match type.size?, chain.elements with
  | some size, .bytes order =>
    let expected ← chunk.sizeOf (← chunk.counted)
    (chain.decodeElements order type size expected encoded).mapError (.codec chunk.key)
  | none, .items =>
    let bytes ←
      (Stage.decodeAll chain.validates chain.stages encoded).mapError (.codec chunk.key)
    let count ← chunk.counted
    (ElementCodec.checkItems count bytes).mapError (.codec chunk.key)
    throw (variableLength chunk)
  | _, _ => throw (.codec chunk.key (chain.unsupported type))

/-- The elements of a box of a chunk, read alone from the opened bytes. -/
def partialElements (opened : Stage.Opened) (order : Option ByteOrder) (type : ElementType)
    (size : Nat) (chunk : Chunk) (box : Box) : Job Bytes :=
  if box.fits chunk.shape then do
    match ← opened.read chunk.key (box.byteRanges chunk.shape size) with
    | none => return chunk.filled box.wrappedCount.toNat
    | some parts => return ElementCodec.arrange order type parts.flatten
  else .fail (.codec chunk.key (.incompatible box chunk.shape))

/-- Reads and checks all items of a chunk before it looks at the box, of which
nothing can be held here. -/
def partialItems (opened : Stage.Opened) (chunk : Chunk) (box : Box) : Job Bytes := do
  if let some parts ← opened.read chunk.key Stage.allBytes then
    let count ← Job.ofOutcome chunk.counted
    Job.ofOutcome <|
      (ElementCodec.checkItems count parts.flatten).mapError (.codec chunk.key)
  if box.fits chunk.shape then .fail (variableLength chunk)
  else .fail (.codec chunk.key (.incompatible box chunk.shape))

/-- The decoded form of a box of a chunk. -/
def partialDecode (chain : CodecChain) (chunk : Chunk) (box : Box) : Job (Option Bytes) := do
  let type ← Job.ofOutcome chunk.checkedType
  match type.size?, chain.elements with
  | some size, .bytes order =>
    let opened ← Stage.openAll chunk.key chain.stages
    some <$> partialElements opened order type size chunk box
  | none, .items =>
    let opened ← Stage.openAll chunk.key chain.stages
    some <$> partialItems opened chunk box
  | _, _ => .fail (.codec chunk.key (chain.unsupported type))

/-- The chain as a codec. -/
def codec (chain : CodecChain) : Codec where
  encode := chain.encode
  decode := chain.decode
  partialDecode := chain.partialDecode

end CodecChain

end ChunkedArray
