import ChunkedArray.Codec.Checksum
import ChunkedArray.Codec.Gzip
import ChunkedArray.Store.Job

/-!
# ChunkedArray.Codec.Stage

The stages of a codec chain that turn bytes into bytes: a checksum behind the
bytes, and compression.

A row of stages is passed from the first to the last when encoding and the other
way round when decoding. Parts of the encoded bytes can be read through a row of
stages: a checksum leaves the places of the bytes as they are and is not
verified then, while compression needs all of them and reads them once, before it
is known which parts are asked for.
-/

namespace ChunkedArray

/-- A stage that turns bytes into bytes. -/
inductive Stage
  /-- Adds a checksum. -/
  | crc32c
  /-- Compresses. -/
  | gzip
  deriving DecidableEq, Repr

namespace Stage

/-- The size of the checksum in bytes. -/
def checksumSize : Nat := 4

/-- The bytes without a checksum behind them. -/
def stripChecksum (bytes : Bytes) : Bytes := bytes.take (bytes.length - checksumSize)

/-- The encoded bytes. -/
def encode : Stage → Bytes → Bytes
  | crc32c, bytes => bytes ++ Checksum.crc32c.trailer bytes
  | gzip, bytes => Gzip.compress bytes

/-- The decoded bytes; `validates` asks for the checksum to be verified. -/
def decode (validates : Bool) : Stage → Bytes → Except CodecFault Bytes
  | crc32c, bytes =>
    let body := stripChecksum bytes
    if bytes.length < checksumSize then .error .shortChecksum
    else if validates && body ++ Checksum.crc32c.trailer body != bytes then
      .error .wrongChecksum
    else .ok body
  | gzip, bytes => (Gzip.decompress bytes).mapError .damaged

/-- The bytes behind a row of stages. -/
def encodeAll (stages : List Stage) (bytes : Bytes) : Bytes :=
  stages.foldl (fun bytes stage => stage.encode bytes) bytes

/-- The bytes in front of a row of stages. -/
def decodeAll (validates : Bool) (stages : List Stage) (bytes : Bytes) :
    Except CodecFault Bytes :=
  stages.reverse.foldlM (fun bytes stage => stage.decode validates bytes) bytes

theorem decode_encode_crc32c (validates : Bool) (bytes : Bytes) :
    decode validates crc32c (encode crc32c bytes) = .ok bytes := by
  have h : stripChecksum (bytes ++ Checksum.crc32c.trailer bytes) = bytes := by
    simp [stripChecksum, checksumSize]
  simp [decode, encode, h, checksumSize]

/-! ### Reading parts -/

/-- A range of the bytes in front of a checksum as a range of those with it. -/
def checksumRange : ByteRange → ByteRange
  | .suffix length => .suffix (length + UInt64.ofNat checksumSize)
  | range => range

/-- What a range with the checksum holds of the range without it. -/
def beforeChecksum : ByteRange → Bytes → Bytes
  | .fromStart _ (some _), bytes => bytes
  | _, bytes => stripChecksum bytes

/-- The range of all bytes. -/
def allBytes : List ByteRange := [.fromStart 0 none]

/-- The bytes in front of a row of stages, opened for reading parts of them. -/
inductive Opened
  /-- Parts are read from the store. -/
  | stored
  /-- All bytes have been read and decompressed, if any are stored. -/
  | held (bytes : Option Bytes)
  /-- A checksum stands behind the bytes. -/
  | checked (opened : Opened)
  deriving DecidableEq, Repr

/-- The parts that some ranges hold of opened bytes, or nothing where none are
stored. -/
def Opened.read (key : String) : Opened → List ByteRange → Job (Option (List Bytes))
  | stored, ranges => (Job.ofCall (.getPartial key ranges)).mapError (.encodedRead key)
  | held none, _ => return none
  | held (some bytes), ranges => do
    let parts ← Job.ofOutcome <|
      (ByteRange.extract bytes ranges).mapError fun error => .codec key (.range error)
    return some parts
  | checked opened, ranges => do
    let parts ← opened.read key (ranges.map checksumRange)
    return parts.map fun parts => ranges.zipWith beforeChecksum parts

/-- Opens the bytes in front of a row of stages, behind which the bytes of the
store stand. -/
def openAll (key : String) : List Stage → Job Opened
  | [] => return .stored
  | crc32c :: stages => do
    let opened ← openAll key stages
    return .checked opened
  | gzip :: stages => do
    let opened ← openAll key stages
    match ← opened.read key allBytes with
    | none => return .held none
    | some parts =>
      let bytes ← Job.ofOutcome <|
        (Gzip.decompress parts.flatten).mapError fun damage => .codec key (.damaged damage)
      return .held (some bytes)

end Stage

end ChunkedArray
