import ChunkedArray.Proofs.Codec.Partial
import ChunkedArray.Proofs.Deflate.Stored

/-!
# ChunkedArray.Proofs.Codec.RoundTrip

Decoding undoes encoding.

Each stage of a chain is undone by itself (`Stage.decode_encodeWith`), the checksum with or
without being verified, and so is a row of them. Compressed files may come from any compressor
that decompressing undoes; storing the data in them is one (`Gzip.decompress_compress`). The
elements are brought into a byte order and back. The bytes that are encoded are exactly as many as
the elements of the chunk take: a size that does not fit a word stops the program before the bytes
are looked at (`encode_eq_ok`).
-/

namespace ChunkedArray

/-! ### Compressed files -/

namespace Gzip

theorem skip_append {first : Bytes} {count : Nat} (h : first.length = count) (rest : Bytes) :
    skip count (first ++ rest) = .ok rest := by
  rw [skip, if_pos (by simp [← h]), List.drop_left' h]

theorem skipHeader_header (body : Bytes) : skipHeader (header ++ body) = .ok body := by
  have hflags : flags? (header ++ body) = .ok ⟨0⟩ := rfl
  have hlength : header.length = headerSize := rfl
  rw [skipHeader, skip_append hlength, Outcome.ok_bind, hflags]
  rfl

@[simp] theorem length_trailer (data : Bytes) : (trailer data).length = trailerSize := by
  rw [trailer, List.length_append, Checksum.length_trailer, Bytes.length_littleEndian]
  rfl

/-- **Decompressing a compressed file gives its data.** -/
theorem decompress_compress (data : Bytes) : decompress (compress data) = .ok data := by
  have htrailer : skip trailerSize (trailer data) = .ok [] := by
    simpa using skip_append (length_trailer data) []
  have hwhole : (trailer data).take trailerSize = trailer data :=
    List.take_of_length_le (Nat.le_of_eq (length_trailer data))
  rw [decompress, compress, List.append_assoc, skipHeader_header, Outcome.ok_bind,
    Deflate.inflate_deflateStored, Outcome.ok_bind]
  dsimp only
  rw [htrailer, Outcome.ok_bind, hwhole, if_pos rfl]
  rfl

end Gzip

/-! ### Stages -/

namespace Stage

/-- The encoded bytes, where `compress` makes the compressed files. -/
def encodeWith (compress : Bytes → Bytes) : Stage → Bytes → Bytes
  | crc32c, bytes => encode crc32c bytes
  | gzip, bytes => compress bytes

/-- The bytes behind a row of stages, where `compress` makes the compressed files. -/
def encodeAllWith (compress : Bytes → Bytes) (stages : List Stage) (bytes : Bytes) : Bytes :=
  stages.foldl (fun bytes stage => stage.encodeWith compress bytes) bytes

theorem encodeWith_compress (stage : Stage) (bytes : Bytes) :
    stage.encodeWith Gzip.compress bytes = stage.encode bytes := by cases stage <;> rfl

theorem encodeAllWith_compress (stages : List Stage) (bytes : Bytes) :
    encodeAllWith Gzip.compress stages bytes = encodeAll stages bytes := by
  simp only [encodeAllWith, encodeAll, encodeWith_compress]

variable {compress : Bytes → Bytes}

theorem encodeAllWith_cons (stage : Stage) (stages : List Stage) (bytes : Bytes) :
    encodeAllWith compress (stage :: stages) bytes =
      encodeAllWith compress stages (stage.encodeWith compress bytes) := rfl

section Undone

variable (hcompress : ∀ bytes, Gzip.decompress (compress bytes) = .ok bytes)

include hcompress

theorem decode_encodeWith (validates : Bool) (stage : Stage) (bytes : Bytes) :
    stage.decode validates (stage.encodeWith compress bytes) = .ok bytes := by
  cases stage with
  | crc32c => exact decode_encode_crc32c validates bytes
  | gzip =>
    rw [encodeWith, decode, hcompress]
    rfl

/-- **A row of stages is undone**, whether checksums are verified or not. -/
theorem decodeAll_encodeAllWith (validates : Bool) (stages : List Stage) (bytes : Bytes) :
    decodeAll validates stages (encodeAllWith compress stages bytes) = .ok bytes := by
  induction stages generalizing bytes with
  | nil => rfl
  | cons stage stages ih =>
    -- the first stage when encoding is the last one when decoding
    rw [decodeAll_cons, encodeAllWith_cons, ih, Outcome.ok_bind, decode_encodeWith hcompress]

end Undone

/-- Every checksum adds its own size. -/
theorem length_encodeAllWith {stages : List Stage} (h : .gzip ∉ stages) (bytes : Bytes) :
    (encodeAllWith compress stages bytes).length =
      bytes.length + checksumSize * stages.count .crc32c := by
  induction stages generalizing bytes with
  | nil => rfl
  | cons stage stages ih =>
    have hrest := List.not_mem_of_not_mem_cons h
    cases stage with
    | gzip => exact absurd List.mem_cons_self h
    | crc32c =>
      have hfirst : (encodeWith compress crc32c bytes).length = bytes.length + checksumSize := by
        rw [encodeWith, encode, List.length_append, Checksum.length_trailer, checksumSize]
      rw [encodeAllWith_cons, ih hrest, hfirst, List.count_cons_self, Nat.mul_succ, Nat.add_assoc,
        Nat.add_comm checksumSize]

end Stage

/-! ### Chains -/

section Chain

variable {chain : CodecChain} {chunk : Chunk} {decoded encoded : Bytes}

namespace ElementCodec

theorem arrange_arrange (order : Option ByteOrder) (type : ElementType) (bytes : Bytes) :
    arrange order type (arrange order type bytes) = bytes := ByteOrder.arrange_arrange ..

@[simp] theorem length_arrange (order : Option ByteOrder) (type : ElementType) (bytes : Bytes) :
    (arrange order type bytes).length = bytes.length := ByteOrder.length_arrange ..

theorem checkOrder_eq_ok {order : Option ByteOrder} {size : Nat} {done : Unit} :
    checkOrder order size = .ok done ↔ (order = none → size ≤ 1) := by
  unfold checkOrder
  cases order <;> simp

end ElementCodec

/-- The size that is asked of the bytes of a chunk is exact. -/
theorem length_of_sized (h : (chunk.counted >>= chunk.sizeOf) = .ok decoded.length) :
    decoded.length = chunk.shape.elementCount * chunk.elementSize := by
  simp only [Outcome.bind_eq_ok, Chunk.counted_eq_ok, Chunk.sizeOf_eq_ok] at h
  obtain ⟨count, ⟨rfl, -⟩, hsize, -⟩ := h
  exact hsize.symm

theorem encodeElements_eq_ok {type : ElementType} {size expected : Nat} :
    chain.encodeElements type size expected decoded = .ok encoded ↔
      ∃ order, chain.elements = .bytes order ∧ (order = none → size ≤ 1) ∧
        decoded.length = expected ∧
        Stage.encodeAll chain.stages (ElementCodec.arrange order type decoded) = encoded := by
  simp only [CodecChain.encodeElements, Outcome.bind_eq_ok, ElementCodec.checkSize_eq_ok,
    exists_const]
  cases helements : chain.elements with
  | items => simp
  | bytes order =>
    simp only [ElementCodec.convert, Outcome.bind_eq_ok, ElementCodec.checkOrder_eq_ok,
      Outcome.pure_eq_ok, exists_const]
    constructor
    · rintro ⟨hcount, bytes, ⟨horder, rfl⟩, rfl⟩
      exact ⟨order, rfl, horder, hcount, rfl⟩
    · rintro ⟨order', horder', horder, hcount, rfl⟩
      obtain rfl := ElementCodec.bytes.inj horder'
      exact ⟨hcount, _, ⟨horder, rfl⟩, rfl⟩

/-- A chunk is encoded if its chain writes elements of one size as they are, with a byte order
where they need one, and if the bytes are as many as the elements take. -/
theorem encode_eq_ok : chain.encode chunk decoded = .ok encoded ↔
    ∃ type order, chunk.checkedType = .ok type ∧ type.size? = some chunk.elementSize ∧
      chain.elements = .bytes order ∧ (order = none → chunk.elementSize ≤ 1) ∧
      (chunk.counted >>= chunk.sizeOf) = .ok decoded.length ∧
      Stage.encodeAll chain.stages (ElementCodec.arrange order type decoded) = encoded := by
  simp only [CodecChain.encode, Outcome.bind_eq_ok]
  constructor
  · rintro ⟨type, htype, count, hcount, h⟩
    cases hsize : type.size? with
    | none => simp [hsize] at h
    | some size =>
      obtain rfl := size_of_checkedType htype hsize
      simp only [hsize, Outcome.bind_eq_ok, Outcome.mapError_eq_ok, encodeElements_eq_ok] at h
      obtain ⟨expected, hexpected, order, helements, horder, rfl, hencoded⟩ := h
      exact ⟨type, order, htype, hsize, helements, horder, ⟨count, hcount, hexpected⟩, hencoded⟩
  · rintro ⟨type, order, htype, hsize, helements, horder, ⟨count, hcount, hexpected⟩, hencoded⟩
    refine ⟨type, htype, count, hcount, ?_⟩
    simp only [hsize, Outcome.bind_eq_ok, Outcome.mapError_eq_ok, encodeElements_eq_ok]
    exact ⟨_, hexpected, order, helements, horder, rfl, hencoded⟩

/-- The encoded form of a chunk, where `compress` makes the compressed files: the stages are
passed behind what the chain makes of the elements alone. -/
def CodecChain.encodeWith (compress : Bytes → Bytes) (chain : CodecChain) (chunk : Chunk)
    (decoded : Bytes) : Outcome Bytes :=
  ({ chain with stages := [] }.encode chunk decoded).map
    (Stage.encodeAllWith compress chain.stages)

variable {compress : Bytes → Bytes}

theorem encodeWith_eq_ok : chain.encodeWith compress chunk decoded = .ok encoded ↔
    ∃ type order, chunk.checkedType = .ok type ∧ type.size? = some chunk.elementSize ∧
      chain.elements = .bytes order ∧ (order = none → chunk.elementSize ≤ 1) ∧
      (chunk.counted >>= chunk.sizeOf) = .ok decoded.length ∧
      Stage.encodeAllWith compress chain.stages (ElementCodec.arrange order type decoded) =
        encoded := by
  rw [CodecChain.encodeWith, Outcome.map_eq_ok]
  constructor
  · rintro ⟨bytes, hbytes, rfl⟩
    obtain ⟨type, order, htype, hsize, helements, horder, hcount, rfl⟩ := encode_eq_ok.mp hbytes
    exact ⟨type, order, htype, hsize, helements, horder, hcount, rfl⟩
  · rintro ⟨type, order, htype, hsize, helements, horder, hcount, rfl⟩
    exact ⟨_, encode_eq_ok.mpr ⟨type, order, htype, hsize, helements, horder, hcount, rfl⟩, rfl⟩

/-- Encoding is encoding with files that hold the data as they are. -/
theorem encodeWith_compress_iff : chain.encodeWith Gzip.compress chunk decoded = .ok encoded ↔
    chain.encode chunk decoded = .ok encoded := by
  simp only [encodeWith_eq_ok, encode_eq_ok, Stage.encodeAllWith_compress]

/-- What is encoded is decoded again. -/
theorem decode_of_encodeWith (hcompress : ∀ bytes, Gzip.decompress (compress bytes) = .ok bytes)
    (h : chain.encodeWith compress chunk decoded = .ok encoded) :
    chain.decode chunk encoded = .ok decoded := by
  obtain ⟨type, order, htype, hsize, helements, horder, hcount, rfl⟩ := encodeWith_eq_ok.mp h
  have hconvert : ElementCodec.convert order type chunk.elementSize
      (ElementCodec.arrange order type decoded) = .ok decoded := by
    have horder' : ElementCodec.checkOrder order chunk.elementSize = .ok () :=
      ElementCodec.checkOrder_eq_ok.mpr horder
    rw [ElementCodec.convert, horder', Outcome.ok_bind, ElementCodec.arrange_arrange]
    rfl
  -- a byte order does not change the size that was checked when encoding
  have hread : chain.decodeElements order type chunk.elementSize decoded.length
      (Stage.encodeAllWith compress chain.stages (ElementCodec.arrange order type decoded)) =
        .ok decoded := by
    simp only [CodecChain.decodeElements, Stage.decodeAll_encodeAllWith hcompress, Outcome.ok_bind,
      ElementCodec.checkSize, ElementCodec.length_arrange, if_true, hconvert]
  obtain ⟨count, hcounted, hsized⟩ := Outcome.bind_eq_ok.mp hcount
  simp only [CodecChain.decode, htype, Outcome.ok_bind, hsize, helements, hcounted, hsized, hread]
  rfl

/-- What may be relied on where a chain encodes the bytes of a chunk. -/
structure CodecChain.RoundTrips (chain : CodecChain) (chunk : Chunk) (decoded encoded : Bytes) :
    Prop where
  /-- The bytes are decoded again. -/
  decode : chain.decode chunk encoded = .ok decoded
  /-- They are exactly as many as the elements take. -/
  sized : decoded.length = chunk.shape.elementCount * chunk.elementSize
  /-- Where nothing is compressed, every checksum adds four bytes. -/
  plain : .gzip ∉ chain.stages →
    encoded.length = decoded.length + 4 * chain.stages.count .crc32c

theorem roundTrips_of_encodeWith
    (hcompress : ∀ bytes, Gzip.decompress (compress bytes) = .ok bytes)
    (h : chain.encodeWith compress chunk decoded = .ok encoded) :
    chain.RoundTrips chunk decoded encoded := by
  obtain ⟨type, order, -, -, -, -, hcount, hencoded⟩ := encodeWith_eq_ok.mp h
  constructor
  case decode => exact decode_of_encodeWith hcompress h
  case sized => exact length_of_sized hcount
  case plain =>
    intro hplain
    rw [← hencoded, Stage.length_encodeAllWith hplain, ElementCodec.length_arrange]
    rfl

/-- **A chunk that is encoded is decoded again**, for every chain and whether checksums are
verified or not, and the bytes that were encoded are exactly as many as its elements take. It is
so with every compressor that decompressing undoes. -/
theorem codec_round_trip (chain : CodecChain) (chunk : Chunk) (decoded encoded : Bytes) :
    (chain.encode chunk decoded = .ok encoded → chain.RoundTrips chunk decoded encoded) ∧
    ∀ compress : Bytes → Bytes, (∀ bytes, Gzip.decompress (compress bytes) = .ok bytes) →
      chain.encodeWith compress chunk decoded = .ok encoded →
      chain.RoundTrips chunk decoded encoded := by
  constructor
  · intro h
    exact roundTrips_of_encodeWith Gzip.decompress_compress (encodeWith_compress_iff.mpr h)
  · intro compress hcompress h
    exact roundTrips_of_encodeWith hcompress h

end Chain

namespace Square

/-- Numbers with the high byte first, compressed and with a checksum that is not verified. -/
def packed : CodecChain := ⟨.bytes (some .big), [.gzip, .crc32c], false⟩

/-- The numbers are decoded from the bytes with their checksum, and from compressed ones. -/
theorem numbers_round_trip :
    numbers.encode chunk decoded = .ok encoded ∧ numbers.decode chunk encoded = .ok decoded ∧
      encoded.length = decoded.length + 4 ∧
      ∃ stored, packed.encodeWith Gzip.compress chunk decoded = .ok stored ∧
        packed.decode chunk stored = .ok decoded := by
  have hnumbers : numbers.encode chunk decoded = .ok encoded := by decide +kernel
  have hpacked : packed.encodeWith Gzip.compress chunk decoded =
      .ok (Stage.encodeAll packed.stages [0, 1, 0, 2, 0, 3, 0, 4]) := rfl
  have hplain := (codec_round_trip numbers chunk decoded encoded).1 hnumbers
  have hcompressed := (codec_round_trip packed chunk decoded _).2 Gzip.compress
    Gzip.decompress_compress hpacked
  exact ⟨hnumbers, hplain.decode, hplain.plain (by decide), _, hpacked, hcompressed.decode⟩

end Square

end ChunkedArray
