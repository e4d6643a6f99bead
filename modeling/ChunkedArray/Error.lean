import ChunkedArray.Deflate.Damage
import ChunkedArray.Region.Box
import ChunkedArray.Files.Tree
import ChunkedArray.Selection.Error

/-!
# ChunkedArray.Error

Why an access to chunks fails. Each layer has its own causes: regions, chunks,
stores, codecs and the description of a codec chain. `AccessError` is what a
caller sees; it carries the cause together with the key of the chunk that it is
about. Only the `message` functions hold wording.

An error that a store reports while a codec reads from it reaches the caller as
an error of the codec, with the store's whole message inside (`encodedRead`).

A product that is taken without a check and leaves its machine word is no error of
the library: the program stops there. It is kept among the errors nevertheless
(`overflow`), since like them it ends an access without a result.
-/

namespace ChunkedArray

/-! ### Causes -/

/-- Why a region of an array cannot be copied. -/
inductive RegionFault
  /-- The box does not fit the shape of the array. -/
  | incompatible (box : Box) (shape : Shape)
  /-- A run lies outside the bytes to copy from. -/
  | range (error : ByteRangeError)
  /-- A run lies outside the buffer to copy into. -/
  | pastEnd (offset : UInt64)
  deriving DecidableEq, Repr

/-- Why a chunk cannot be used as it is described or stored. -/
inductive ChunkFault
  | emptyFill
  /-- The decoded value has another size than the chunk. -/
  | decodedSize (got : Nat) (expected : UInt64)
  /-- The decoded part has another size than the region. -/
  | partialSize (got : Nat) (expected : UInt64)
  | unsupportedType (name : String)
  /-- An axis of the chunk has length zero. -/
  | zeroAxis
  /-- The fill value has another size than the element type. -/
  | incompatibleFill (fill : Bytes) (type : String)
  /-- The elements vary in size. -/
  | variableLength
  /-- The path in the key names no stored value. -/
  | invalidPath (path : String)
  deriving DecidableEq, Repr

/-- The calls of a store. -/
inductive Verb
  | get
  | set
  | erase
  deriving DecidableEq, Repr

/-- Why a store refuses a call. -/
inductive StoreFault
  /-- A range lies outside the value. -/
  | range (error : ByteRangeError)
  /-- A range lies outside a value in memory. -/
  | memoryRange (error : ByteRangeError)
  | file (error : FileError)
  /-- The store fails all such calls on the key. -/
  | refused (verb : Verb)
  deriving DecidableEq, Repr

/-- Why bytes cannot be encoded or decoded. -/
inductive CodecFault
  /-- The decoded bytes have another size than the chunk. -/
  | decodedSize (got : Nat) (expected : UInt64)
  /-- Elements of several bytes, and no byte order for them. -/
  | missingByteOrder (size : Nat)
  | wrongChecksum
  /-- There are too few bytes to hold a checksum. -/
  | shortChecksum
  /-- The box does not fit the shape of the chunk. -/
  | incompatible (box : Box) (shape : Shape)
  /-- Bytes of fixed size elements, and a type whose elements vary in size. -/
  | variableSized
  /-- Bytes of fixed size elements, and a codec for elements that vary in size. -/
  | fixedSized
  /-- The codec does not take elements of the type. -/
  | unsupportedType (type form : String)
  /-- A range lies outside the decoded bytes. -/
  | range (error : ByteRangeError)
  /-- The encoded items are not as many as the chunk has elements. -/
  | itemCount (expected got : Nat)
  /-- An item reaches past the end of the encoded bytes. -/
  | brokenItem
  /-- The compressed bytes are damaged. -/
  | damaged (damage : Damage)
  /-- The codec does not take bytes that begin so. -/
  | refused (beginning : Bytes)
  /-- The encoded bytes lack their tag. -/
  | badTag
  deriving DecidableEq, Repr

/-- Why the description of a codec chain is refused. -/
inductive MetadataFault
  /-- The text is not JSON. -/
  | malformed
  /-- A part of the description has the wrong form. -/
  | illFormed
  | unknownCodec (name : String)
  /-- The settings of a codec are not its settings. -/
  | badConfiguration (name : String)
  /-- The chain does not have exactly one codec that turns elements into bytes. -/
  | elementCodecs (count : Nat)
  deriving DecidableEq, Repr

/-- Why an access to chunks fails. -/
inductive AccessError
  /-- The selection cannot be expressed as boxes. -/
  | selection (cause : SelectionError)
  /-- A slice with a step other than one meets an axis. -/
  | invalidSlice (length : UInt64) (step : Int64)
  /-- The region in the chunk and the one in the buffer differ in size. -/
  | regionSizeMismatch (chunkElements outElements : UInt64)
  /-- A buffer has another size than its shape. -/
  | bufferSize (shape : Shape) (expected : UInt64) (got : Nat)
  | region (fault : RegionFault)
  /-- A chunk has more elements than the limit. -/
  | chunkTooLarge (elements : Nat) (limit : UInt64)
  | invalidChunk (key : String) (fault : ChunkFault)
  /-- No store serves keys of this kind. -/
  | unsupportedStore (key : String)
  /-- The key belongs to another kind of store than the one in use. -/
  | storeChanged (key : String)
  | store (key : String) (fault : StoreFault)
  | codec (key : String) (fault : CodecFault)
  /-- A store failed while a codec read the value of a key. -/
  | encodedRead (key : String) (cause : AccessError)
  | metadata (fault : MetadataFault)
  /-- A product left its machine word, which stopped the program. -/
  | overflow
  deriving DecidableEq, Repr

/-- A result, or why there is none. -/
abbrev Outcome (α : Type) := Except AccessError α

/-- The outcome of a product that is taken without a check: it stops the program where
there is nothing to hold it. -/
def Outcome.ofProduct {α : Type} (product : Option α) : Outcome α :=
  product.elim (.error .overflow) .ok

/-! ### Wording -/

/-- The wording for a box that does not fit a shape. -/
def incompatibleMessage (box : Box) (shape : Shape) : String :=
  let region := box.text
  let lengths := shape.text
  s!"incompatible array subset {region} with array shape {lengths}"

/-- The wording of a region fault. -/
def RegionFault.message : RegionFault → String
  | incompatible box shape => incompatibleMessage box shape
  | range error => error.message
  | pastEnd offset =>
    let place := offset.toNat
    s!"run at byte {place} is past the end of the buffer"

/-- The wording of a chunk fault. -/
def ChunkFault.message : ChunkFault → String
  | emptyFill => "fill value must encode at least one byte"
  | decodedSize got expected =>
    let size := expected.toNat
    s!"decoded {got} bytes, expected {size}"
  | partialSize got expected =>
    let size := expected.toNat
    s!"partial decode gave {got} bytes, expected {size}"
  | unsupportedType name => s!"unsupported data type {name}"
  | zeroAxis => "chunk shapes must be non-zero"
  | incompatibleFill fill type =>
    let octets := listing toString (fill.map UInt8.toNat)
    s!"incompatible fill value {octets} for data type {type}"
  | variableLength => "only fixed length data types are supported"
  | invalidPath path => s!"invalid store key {path}"

/-- The name of a call. -/
def Verb.text : Verb → String
  | get => "get"
  | set => "set"
  | erase => "erase"

/-- The wording of a store fault. -/
def StoreFault.message : StoreFault → String
  | range error => error.message
  | memoryRange error => "invalid byte range " ++ error.message
  | file error => error.message
  | refused verb =>
    let call := verb.text
    s!"{call} refused"

/-- The wording of damage to compressed data. -/
def Damage.message : Damage → String
  | endOfFile => "unexpected end of file"
  | endOfBlocks => "incomplete deflate stream"
  | badHeader => "invalid gzip header"
  | longText => "gzip header field too long"
  | badBlock => "corrupt deflate stream"
  | mismatch => "corrupt gzip stream does not have a matching checksum"

/-- The wording of a codec fault. -/
def CodecFault.message : CodecFault → String
  | decodedSize got expected =>
    let size := expected.toNat
    s!"the size of a decoded chunk is {got}, expected {size}"
  | missingByteOrder size =>
    s!"tried to encode an array with element size {size} with endianness None"
  | wrongChecksum => "the checksum is invalid"
  | shortChecksum => "crc32c decoder expects a 32 bit input"
  | incompatible box shape => incompatibleMessage box shape
  | fixedSized => "Expected variable length array bytes"
  | variableSized => "Used fixed length array bytes with a variable sized data type."
  | unsupportedType type form => s!"Unsupported data type {type} for codec {form}"
  | range error => error.message
  | itemCount expected got => s!"Expected header with {expected} elements, got {got}"
  | brokenItem => "an item reaches past the end of the encoded bytes"
  | damaged damage => damage.message
  | refused beginning =>
    let octets := beginning.hex
    s!"will not encode {octets}"
  | badTag => "bad tag"

/-- The wording of a metadata fault. -/
def MetadataFault.message : MetadataFault → String
  | malformed => "the text is not JSON"
  | illFormed => "the description of a codec is a name with a configuration"
  | unknownCodec name => s!"codec {name} is not supported"
  | badConfiguration name => s!"the configuration does not suit codec {name}"
  | elementCodecs count => s!"a chain has one array to bytes codec, not {count}"

namespace AccessError

/-- The wording of an access error. -/
def message : AccessError → String
  | selection _ => "Selection"
  | invalidSlice length step =>
    let size := length.toNat
    let stride := toString step.toInt
    s!"invalid slice for axis of length {size}: slice step must be equal to 1, got {stride}"
  | regionSizeMismatch chunkElements outElements =>
    let chunk := chunkElements.toNat
    let out := outElements.toNat
    s!"chunk region has {chunk} elements but output region has {out}"
  | bufferSize shape expected got =>
    let lengths := shape.text
    let size := expected.toNat
    s!"buffer of {got} bytes does not match shape {lengths} ({size} bytes)"
  | region fault => "region does not fit its array: " ++ fault.message
  | chunkTooLarge elements limit =>
    let most := limit.toNat
    s!"refusing to allocate a chunk of {elements} elements (limit {most}); "
      ++ "set ZARRS_PIPELINE_MAX_CHUNK_ELEMS to override"
  | invalidChunk key fault => s!"invalid chunk '{key}': " ++ fault.message
  | unsupportedStore key => s!"unsupported store for {key}"
  | storeChanged key => s!"the store type changed: {key} does not match the open store"
  | store key fault => s!"store error for '{key}': " ++ fault.message
  | codec key fault => s!"codec error for '{key}': " ++ fault.message
  | encodedRead key cause => s!"codec error for '{key}': " ++ cause.message
  | metadata fault => "invalid codec metadata: " ++ fault.message
  | overflow => "attempt to multiply with overflow"

/-- The selection error inside an access error that is one. -/
def selection? : AccessError → Option SelectionError
  | selection cause => some cause
  | _ => none

/-- Does the failure come from a selection that is not supported, and not from
a store or a codec? -/
def isUnsupportedSelection (error : AccessError) : Bool := error.selection?.isSome

end AccessError

end ChunkedArray
