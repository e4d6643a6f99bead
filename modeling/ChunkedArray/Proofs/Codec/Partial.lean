import ChunkedArray.Codec.Chain
import ChunkedArray.Proofs.Codec.ByteOrder
import ChunkedArray.Proofs.Codec.Opened
import ChunkedArray.Proofs.Grid.Content

/-!
# ChunkedArray.Proofs.Codec.Partial

Decoding a part of a chunk alone gives what decoding the whole chunk and cutting out the part
gives (`partialDecode_agrees`).

The parts of the opened bytes are those of the bytes that decoding stage by stage gives
(`Stage.openAll_shows`). They are then brought into the byte order of the elements, which can
be done part by part (`ByteOrder.arrange_byteRanges`). A region is thus read alike whether
its chunk is decoded in part or as a whole (`read_whole`).
-/

namespace ChunkedArray

variable {σ : Type} {store : Store σ} {state after : σ}

/-! ### Decoding a part of a chunk -/

/-- The chain takes the elements of the chunk. -/
def CodecChain.Takes (chain : CodecChain) (chunk : Chunk) : Prop :=
  ∃ type, chunk.checkedType = .ok type ∧ chain.elements.takes type

section Chunk

variable {chain : CodecChain} {chunk : Chunk} {box : Box} {order : Option ByteOrder}
  {type : ElementType} {size : Nat}

/-- The elements of a chunk have the size that their type gives them. -/
theorem size_of_checkedType (htype : chunk.checkedType = .ok type)
    (hsize : type.size? = some size) : size = chunk.elementSize := by
  unfold Chunk.checkedType at htype
  cases hname : ElementType.ofName? chunk.elementType with
  | none =>
    rw [hname] at htype
    cases htype
  | some found =>
    simp only [hname] at htype
    split at htype
    next => cases htype
    next =>
      split at htype
      next => cases htype
      next hfill =>
        obtain rfl := Except.ok.inj htype
        simpa [hsize] using hfill

theorem ElementCodec.checkSize_eq_ok {expected : Nat} {bytes : Bytes} {done : Unit} :
    checkSize expected bytes = .ok done ↔ bytes.length = expected := by
  simp [checkSize]

/-- What a chain has decoded is what is in front of its stages, in the byte order of the
elements. It is exactly as large as the chunk. -/
theorem decode_eq_ok (helements : chain.elements = .bytes order)
    (htype : chunk.checkedType = .ok type) (hsize : type.size? = some size)
    {encoded decoded : Bytes} (h : chain.decode chunk encoded = .ok decoded) :
    ∃ bytes, Stage.decodeAll chain.validates chain.stages encoded = .ok bytes ∧
      bytes.length = chunk.shape.elementCount * chunk.elementSize ∧
      decoded = ElementCodec.arrange order type bytes := by
  simp only [CodecChain.decode, htype, Outcome.ok_bind, hsize, helements, Outcome.bind_eq_ok,
    Outcome.mapError_eq_ok, CodecChain.decodeElements, ElementCodec.checkSize_eq_ok,
    ElementCodec.convert, Chunk.counted_eq_ok, Chunk.sizeOf_eq_ok] at h
  obtain ⟨count, ⟨rfl, -⟩, expected, ⟨rfl, -⟩, bytes, hbytes, ⟨⟩, hlength, ⟨⟩, -, hok⟩ := h
  exact ⟨bytes, hbytes, hlength, (Except.ok.inj hok).symm⟩

/-- Once the stored bytes are opened, the runs of the box are read from them. -/
theorem partialDecode_run (helements : chain.elements = .bytes order)
    (htype : chunk.checkedType = .ok type) (hsize : type.size? = some size)
    (hfits : box.fits chunk.shape) {opened : Stage.Opened}
    (hopen : (Stage.openAll chunk.key chain.stages).run store state = (.ok opened, after))
    {parts : Option (List Bytes)}
    (hread : ((opened.read chunk.key (box.byteRanges chunk.shape size)).run store after).1 =
      .ok parts) :
    ((chain.partialDecode chunk box).run store state).1 = .ok (some (match parts with
      | none => chunk.filled box.wrappedCount.toNat
      | some parts => ElementCodec.arrange order type parts.flatten)) := by
  have helements' : ((CodecChain.partialElements opened order type size chunk box).run store
      after).1 = .ok (match parts with
        | none => chunk.filled box.wrappedCount.toNat
        | some parts => ElementCodec.arrange order type parts.flatten) := by
    rw [CodecChain.partialElements, if_pos hfits, Job.bind_eq,
      Job.run_bind_of_ok (Prod.ext hread rfl)]
    cases parts <;> rfl
  simp only [CodecChain.partialDecode, htype, Job.ofOutcome, Job.bind_eq, Job.bind_done_ok, hsize,
    helements]
  rw [Job.run_bind_of_ok hopen]
  show ((Job.bind _ _).run store after).1 = _
  rw [Job.run_bind_of_ok (Prod.ext helements' rfl)]
  rfl

section Part

variable (hstore : store.CutsParts) (helements : chain.elements = .bytes order)
  (htakes : chain.Takes chunk) (hfits : box.fits chunk.shape)

include helements htakes in
theorem exists_size_of_takes : ∃ type size, chunk.checkedType = .ok type ∧
    type.size? = some size := by
  obtain ⟨type, htype, htaken⟩ := htakes
  rw [helements, ElementCodec.takes] at htaken
  obtain ⟨size, hsize⟩ := Option.isSome_iff_exists.mp htaken
  exact ⟨type, size, htype, hsize⟩

include hstore helements htakes hfits

/-- Of a chunk that is not there, the fill value is decoded. -/
theorem partialDecode_absent (hget : (store.answer (.get chunk.key) state).1 = .ok none) :
    ((chain.partialDecode chunk box).run store state).1 =
      .ok (some (chunk.filled box.wrappedCount.toNat)) := by
  obtain ⟨type, size, htype, hsize⟩ := exists_size_of_takes helements htakes
  have hdecode : Stage.decodeStored chain.validates chain.stages none = .ok none := rfl
  obtain ⟨opened, after, hopen, hshows⟩ :=
    Stage.openAll_shows hstore hget (fun _ => nofun) hdecode
  exact partialDecode_run helements htype hsize hfits hopen (hshows _)

/-- **Of a chunk that is there, what is cut from the whole chunk is decoded.** -/
theorem partialDecode_present (hvacant : box.vacant = false) {encoded decoded part : Bytes}
    (hget : (store.answer (.get chunk.key) state).1 = .ok (some encoded))
    (hlength : encoded.length ≤ FileTree.largestOffset)
    (hdecode : chain.decode chunk encoded = .ok decoded)
    (hpart : box.extract chunk.shape chunk.elementSize decoded = .ok part) :
    ((chain.partialDecode chunk box).run store state).1 = .ok (some part) := by
  obtain ⟨type, size, htype, hsize⟩ := exists_size_of_takes helements htakes
  obtain ⟨bytes, hbytes, -, rfl⟩ := decode_eq_ok helements htype hsize hdecode
  rw [← size_of_checkedType htype hsize] at hpart
  obtain ⟨-, hwithin, rfl⟩ := Box.extract_eq_ok hvacant hpart
  have hstored : Stage.decodeStored chain.validates chain.stages (some encoded) =
      .ok (some bytes) := by
    rw [Stage.decodeStored, hbytes]
    rfl
  obtain ⟨opened, after, hopen, hshows⟩ := Stage.openAll_shows hstore hget
    (fun other hother => Option.some.inj hother ▸ hlength) hstored
  have hranges : ∀ range ∈ box.byteRanges chunk.shape size,
      range.FromStart ∧ range.within bytes.length := by
    intro range hrange
    have hle := hwithin range hrange
    obtain ⟨start, -, rfl⟩ := List.mem_map.mp hrange
    rw [ElementCodec.arrange, ByteOrder.length_arrange] at hle
    exact ⟨True.intro, hle⟩
  rw [partialDecode_run helements htype hsize hfits hopen (hshows _ hranges)]
  simp only [ElementCodec.arrange,
    ByteOrder.arrange_byteRanges _ hsize fun range hrange => (hranges range hrange).2]

end Part

/-! ### Chunks of a size that is a machine word -/

theorem toNat_wrappedCount (hpos : 0 < chunk.elementSize)
    (h : box.elementCount * chunk.elementSize < UInt64.size) :
    box.wrappedCount.toNat = box.elementCount :=
  toNat_toUInt64 (Nat.lt_of_le_of_lt (Nat.le_mul_of_pos_right _ hpos) h)

/-- As many copies of the fill value are made as the box has elements, if they can all be
held. -/
theorem filled_wrappedCount (h : box.elementCount * chunk.elementSize < UInt64.size) :
    chunk.filled box.wrappedCount.toNat = chunk.filled box.elementCount := by
  rcases Nat.eq_zero_or_pos chunk.elementSize with hzero | hpos
  · have hfill : chunk.fill = [] := List.length_eq_zero_iff.mp hzero
    simp [Chunk.filled, hfill]
  · rw [toNat_wrappedCount hpos h]

/-- A decoded chunk has the size of its shape. -/
theorem length_of_decode (helements : chain.elements = .bytes order)
    (htakes : chain.Takes chunk) {encoded decoded : Bytes}
    (hdecode : chain.decode chunk encoded = .ok decoded) :
    decoded.length = chunk.shape.elementCount * chunk.elementSize := by
  obtain ⟨type, size, htype, hsize⟩ := exists_size_of_takes helements htakes
  obtain ⟨bytes, -, hlength, rfl⟩ := decode_eq_ok helements htype hsize hdecode
  rw [ElementCodec.arrange, ByteOrder.length_arrange, hlength]

/-- What is cut from a chunk of the right size passes the check of sizes. -/
theorem checkSize_extract (hpos : 0 < chunk.elementSize) (hsmall : chunk.Small)
    (hfits : box.fits chunk.shape) {fault : Nat → UInt64 → ChunkFault} {decoded part : Bytes}
    (hlength : decoded.length = chunk.shape.elementCount * chunk.elementSize)
    (hpart : box.extract chunk.shape chunk.elementSize decoded = .ok part) :
    chunk.checkSize box.wrappedCount.toNat fault part = .ok part := by
  have hsize := Box.length_extract hfits hlength (hlength ▸ hsmall) hpart
  have hexpected : chunk.sizeOf box.wrappedCount.toNat = .ok part.length := by
    rw [toNat_wrappedCount hpos (hsmall.part_lt hfits)]
    exact Chunk.sizeOf_eq_ok.mpr ⟨hsize.symm, hsmall.part_lt hfits⟩
  rw [Chunk.checkSize, hexpected, Outcome.ok_bind, if_pos rfl]
  rfl

/-- A part of a chunk of copies of the fill value is copies of the fill value. -/
theorem extract_filled (hsmall : chunk.Small) (hfits : box.fits chunk.shape) :
    box.extract chunk.shape chunk.elementSize (chunk.filled chunk.shape.elementCount) =
      .ok (chunk.filled box.elementCount) := by
  have hlength := length_filled chunk chunk.shape.elementCount
  rw [(Chunk.Lists.filled chunk).extract_eq (by rw [hlength]; exact hsmall) hfits,
    List.flatMap_def, List.map_const', Box.length_coordinates]
  rfl

/-! ### Reading a region -/

/-- The chain as a codec that decodes whole chunks only. -/
def CodecChain.whole (chain : CodecChain) : Codec where
  encode := chain.encode
  decode := chain.decode

/-- **What is cut from the content of a chunk is decoded in part**, whether something is stored
or not. -/
theorem partialDecode_content (hstore : store.CutsParts) (helements : chain.elements = .bytes order)
    (htakes : chain.Takes chunk) (hsmall : chunk.Small) (hfits : box.fits chunk.shape)
    (hvacant : box.vacant = false) {stored : Option Bytes} {decoded part : Bytes}
    (hget : (store.answer (.get chunk.key) state).1 = .ok stored)
    (hlength : ∀ encoded, stored = some encoded → encoded.length ≤ FileTree.largestOffset)
    (hcontent : chain.whole.content chunk stored = .ok decoded)
    (hpart : box.extract chunk.shape chunk.elementSize decoded = .ok part) :
    ((chain.partialDecode chunk box).run store state).1 = .ok (some part) ∧
      decoded.length = chunk.shape.elementCount * chunk.elementSize := by
  cases stored with
  | none =>
    obtain rfl := Except.ok.inj hcontent
    obtain rfl := Except.ok.inj ((extract_filled hsmall hfits).symm.trans hpart)
    rw [partialDecode_absent hstore helements htakes hfits hget,
      filled_wrappedCount (hsmall.part_lt hfits)]
    exact ⟨rfl, length_filled chunk _⟩
  | some encoded =>
    exact ⟨partialDecode_present hstore helements htakes hfits hvacant hget (hlength _ rfl)
      hcontent hpart, length_of_decode helements htakes hcontent⟩

/-- **A region that is read from whole chunks** is read from parts of chunks as well. -/
theorem read_whole {plan : ChunkPlan} {limit : UInt64} {region : Bytes} (hstore : store.CutsParts)
    (helements : chain.elements = .bytes order) (htakes : chain.Takes plan.chunk)
    (hsmall : plan.chunk.Small) (hfits : plan.chunkBox.fits plan.chunk.shape)
    (hlength : ∀ encoded, (store.answer (.get plan.chunk.key) state).1 = .ok (some encoded) →
      encoded.length ≤ FileTree.largestOffset)
    (h : ((plan.read chain.whole limit).run store state).1 = .ok region) :
    ((plan.read chain.codec limit).run store state).1 = .ok region := by
  obtain ⟨after, h⟩ : ∃ after,
      (plan.read chain.whole limit).run store state = (.ok region, after) := ⟨_, Prod.ext h rfl⟩
  unfold ChunkPlan.read at h ⊢
  split at h
  next hvacant =>
    rw [if_pos hvacant]
    exact congrArg Prod.fst h
  next hvacant =>
    rw [if_neg hvacant]
    split at h
    next hcovers =>
      rw [if_pos hcovers]
      exact congrArg Prod.fst h
    next hcovers =>
      rw [if_neg hcovers]
      obtain ⟨count, start, hcount, h⟩ := Job.run_bind_eq_ok h
      obtain ⟨hok, rfl⟩ := Prod.mk.inj hcount
      -- the chunk is decoded as a whole
      obtain ⟨answer, between, hnone, h⟩ := Job.run_bind_eq_ok h
      obtain ⟨hanswer, rfl⟩ := Prod.mk.inj hnone
      obtain rfl := Except.ok.inj hanswer
      obtain ⟨decoded, final, hread, h⟩ := Job.run_bind_eq_ok h
      have hpart := (Prod.mk.inj h).1
      obtain ⟨hpos, stored, hget, hcontent⟩ := readChunk_eq_ok hread
      -- what is cut from it is what is decoded in part
      obtain ⟨hdecode, hsize⟩ := partialDecode_content hstore helements htakes hsmall hfits
        (by simpa using hvacant) hget (fun encoded hstored => hlength encoded (hstored ▸ hget))
        hcontent hpart
      rw [hok]
      show ((Job.bind (chain.partialDecode _ _) _).run store state).1 = _
      rw [Job.run_bind_of_ok (Prod.ext hdecode rfl)]
      exact checkSize_extract hpos hsmall hfits hsize hpart

/-! ### Parts and wholes -/

/-- What the chain decodes of a box of a chunk alone is what is cut from the whole chunk. Bytes
that can be held have a machine word as their size, so this is asked of what is repeated or
decoded as a whole. -/
structure CodecChain.DecodesPart (chain : CodecChain) (store : Store σ) (state : σ) (chunk : Chunk)
    (box : Box) : Prop where
  /-- Of a chunk that is not there, as many copies of the fill value as the box has
  elements. -/
  absent : (store.answer (.get chunk.key) state).1 = .ok none →
    box.elementCount * chunk.elementSize < UInt64.size →
    ((chain.partialDecode chunk box).run store state).1 = .ok (some (chunk.filled box.elementCount))
  present : ∀ encoded decoded part,
    (store.answer (.get chunk.key) state).1 = .ok (some encoded) →
    chain.decode chunk encoded = .ok decoded →
    box.extract chunk.shape chunk.elementSize decoded = .ok part →
    ((chain.partialDecode chunk box).run store state).1 = .ok (some part)
  /-- There is something to cut from a chunk that is decoded as a whole. -/
  cut : chunk.Small → ∀ encoded decoded, chain.decode chunk encoded = .ok decoded →
    ∃ part, box.extract chunk.shape chunk.elementSize decoded = .ok part
  /-- Reading the region gives the same bytes without and with a way to decode it alone. -/
  region : chunk.Small → ∀ outBox limit region,
    ((ChunkPlan.read chain.whole limit ⟨chunk, box, outBox⟩).run store state).1 = .ok region →
    ((ChunkPlan.read chain.codec limit ⟨chunk, box, outBox⟩).run store state).1 = .ok region

/-- **Decoding a part agrees with decoding the whole**, for chunks of elements of one size and
any stages behind them, on every store that cuts parts. Routers are such stores, and so are
those that ask for a value to cut the parts from it. -/
theorem chains_decode_parts :
    Router.store.CutsParts ∧ (∀ (σ : Type) (store : Store σ), store.cutting.CutsParts) ∧
      ∀ (σ : Type) (store : Store σ) (chain : CodecChain) (order : Option ByteOrder)
        (chunk : Chunk) (box : Box) (state : σ), store.CutsParts →
      chain.elements = .bytes order → chain.Takes chunk → box.fits chunk.shape →
      box.vacant = false →
      (∀ encoded, (store.answer (.get chunk.key) state).1 = .ok (some encoded) →
        encoded.length ≤ FileTree.largestOffset) →
      chain.DecodesPart store state chunk box := by
  refine ⟨Router.store_cutsParts, fun σ store => store.cutting_cutsParts, ?_⟩
  intro σ store chain order chunk box state hstore helements htakes hfits hvacant hlength
  constructor
  case absent =>
    intro hget hsize
    rw [partialDecode_absent hstore helements htakes hfits hget, filled_wrappedCount hsize]
  case present =>
    intro encoded decoded part hget
    exact partialDecode_present hstore helements htakes hfits hvacant hget (hlength encoded hget)
  case cut =>
    intro hsmall encoded decoded hdecode
    have hsize := length_of_decode helements htakes hdecode
    exact ⟨_, Box.extract_eq hfits hsize (hsize ▸ hsmall)⟩
  case region =>
    intro hsmall outBox limit region hregion
    exact read_whole hstore helements htakes hsmall hfits hlength hregion

end Chunk

namespace Square

/-- Numbers with the high byte first, and a checksum of them. -/
def numbers : CodecChain := ⟨.bytes (some .big), [.crc32c], true⟩

def chunk : Chunk := ⟨"memory://c", [2, 2], "uint16", [0, 0]⟩

/-- The second column. -/
def column : Box := [⟨0, 2⟩, ⟨1, 1⟩]

/-- The numbers from one to four. -/
def decoded : Bytes := [1, 0, 2, 0, 3, 0, 4, 0]

/-- The numbers with their checksum. -/
def encoded : Bytes := [0, 1, 0, 2, 0, 3, 0, 4, 118, 22, 189, 185]

/-- A router that has been given the numbers. -/
def router : Router := (Router.answer (.set chunk.key encoded) {}).2

theorem takes : numbers.Takes chunk := ⟨.uint16, rfl, rfl⟩

theorem small : chunk.Small := show 4 * 2 < UInt64.size by decide

theorem router_get : (Router.store.answer (.get chunk.key) router).1 = .ok (some encoded) := rfl

/-- The column is decoded alone and read as what it is in the whole chunk. -/
theorem column_decoded_alone :
    ((numbers.partialDecode chunk column).run Router.store router).1 = .ok (some [2, 0, 4, 0]) ∧
      ((ChunkPlan.read numbers.codec 4 ⟨chunk, column, column⟩).run Router.store router).1 =
        .ok [2, 0, 4, 0] := by
  have hlength : ∀ other, (Router.store.answer (.get chunk.key) router).1 = .ok (some other) →
      other.length ≤ FileTree.largestOffset := by
    intro other hother
    rw [router_get] at hother
    obtain rfl := Option.some.inj (Except.ok.inj hother)
    decide
  have hparts := chains_decode_parts.2.2 Router Router.store numbers (some .big) chunk column
    router chains_decode_parts.1 rfl takes rfl rfl hlength
  have hwhole : ((ChunkPlan.read numbers.whole 4 ⟨chunk, column, column⟩).run Router.store
      router).1 = .ok [2, 0, 4, 0] := by decide +kernel
  exact ⟨hparts.present encoded decoded _ router_get (by decide +kernel) rfl,
    hparts.region small column 4 _ hwhole⟩

end Square

end ChunkedArray
