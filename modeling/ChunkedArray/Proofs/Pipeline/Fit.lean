import ChunkedArray.Proofs.Grid.Content
import ChunkedArray.Proofs.Pipeline.Limit

/-!
# ChunkedArray.Proofs.Pipeline.Fit

No region fails to be copied once a batch is planned.

A plan has one region in a chunk and one in the buffer of the caller. Each lies inside its
array, and the two have exactly as many elements (`ChunkPlan.Fits`), if the size of the chunk
is a machine word. From this all four copies of a plan go well: out of the buffer, out of a
decoded chunk, into a decoded chunk and into the buffer (`ChunkPlan.Copies`). So a batch that
is planned ends with no error of a region or of the size of a buffer, whatever the store and
the codec answer, unless it is one of theirs (`planned_batches_fit`).
-/

namespace ChunkedArray

variable {σ : Type} {pipeline : Pipeline σ} {rules : Rules} {schedule : Schedule}
  {codec : Codec} {limit : UInt64} {chunk : Chunk} {plan : ChunkPlan} {plans : List ChunkPlan}
  {batch : List BatchEntry} {size : Nat} {shape : Shape} {buffer : Bytes} {state : σ}

/-- The error is about a region that does not fit its array, or about the size of a buffer. -/
def AccessError.OfRegion : AccessError → Prop
  | region _ | bufferSize .. => True
  | _ => False

/-! ### Regions inside their arrays -/

/-- Both regions of a plan lie inside their arrays, and have the same number of elements. -/
structure ChunkPlan.Fits (plan : ChunkPlan) (shape : Shape) : Prop where
  inChunk : plan.chunkBox.fits plan.chunk.shape
  inBuffer : plan.outBox.fits shape
  elementCount_eq : plan.chunkBox.elementCount = plan.outBox.elementCount

theorem BatchEntry.fits_of_plan {entry : BatchEntry} (hsmall : entry.chunk.Small)
    (h : entry.plan size shape limit = .ok plan) : plan.chunk.Small ∧ plan.Fits shape := by
  obtain ⟨hplanned, hsound⟩ := BatchEntry.plan_eq_ok h
  have hchunk : plan.chunk.Small := hplanned.chunk_eq ▸ hsmall
  have hinChunk : plan.chunkBox.elementCount < UInt64.size :=
    Nat.lt_of_le_of_lt (Box.elementCount_le hsound.chunkFits)
      (hchunk.elementCount_lt hsound.elementSize_pos)
  have hinBuffer : plan.outBox.elementCount < UInt64.size := by
    simp only [BatchEntry.plan, Outcome.bind_eq_ok] at h
    obtain ⟨_, -, ⟨⟩, hbuffer, -⟩ := h
    exact Nat.lt_of_le_of_lt (Box.elementCount_le hsound.outFits)
      (elementCount_lt_of_checkBuffer hbuffer)
  refine ⟨hchunk, hsound.chunkFits, hsound.outFits, ?_⟩
  -- neither count wraps, so they are the same as soon as the words are
  rw [← toNat_toUInt64 hinChunk, ← toNat_toUInt64 hinBuffer]
  exact congrArg UInt64.toNat hsound.wrappedCount_eq

theorem fits_of_planBatch (hsmall : ∀ entry ∈ batch, entry.chunk.Small)
    (h : planBatch batch size shape limit = .ok plans) :
    ∀ plan ∈ plans, plan.chunk.Small ∧ plan.Fits shape := by
  intro plan hplan
  obtain ⟨entry, hentry, hplanned⟩ := Outcome.exists_of_mem_mapM h hplan
  exact BatchEntry.fits_of_plan (hsmall entry hentry) hplanned

/-! ### Copies -/

/-- The copies of a plan go well, for a buffer of `size` bytes. -/
structure ChunkPlan.Copies (plan : ChunkPlan) (size : Nat) (shape : Shape) : Prop where
  /-- The region is cut from the buffer. -/
  gather : ∀ buffer, buffer.length = size → ∃ region, plan.gather shape buffer = .ok region
  /-- The region is cut from the decoded chunk. -/
  cut : ∀ decoded, decoded.length = plan.chunk.byteCount →
    ∃ region, plan.chunkBox.extract plan.chunk.shape plan.chunk.elementSize decoded = .ok region
  /-- What was cut from the buffer is written over the decoded chunk. -/
  patch : ∀ buffer region decoded, buffer.length = size → plan.gather shape buffer = .ok region →
    decoded.length = plan.chunk.byteCount →
    (plan.chunkBox.update plan.chunk.shape plan.chunk.elementSize region decoded).outcome = .ok ()
  /-- A region of the right size is written over the buffer. -/
  scatter : ∀ region buffer, plan.Takes region → buffer.length = size →
    (plan.scatter shape region buffer).outcome = .ok ()

/-- The size of a chunk is the same if the size of an element is taken as a machine word. -/
theorem Chunk.Small.byteCount_eq (hsmall : chunk.Small) :
    chunk.byteCount = chunk.shape.elementCount * chunk.elementSize.toUInt64.toNat := by
  rw [byteCount]
  rcases Nat.eq_zero_or_pos chunk.shape.elementCount with hzero | hpos
  · rw [hzero, Nat.zero_mul, Nat.zero_mul]
  · rw [toNat_toUInt64 (Nat.lt_of_le_of_lt (Nat.le_mul_of_pos_left _ hpos) hsmall)]

theorem Chunk.Small.length_lt (hsmall : chunk.Small) {decoded : Bytes}
    (hdecoded : decoded.length = chunk.byteCount) : decoded.length < UInt64.size := by
  rw [hdecoded]
  exact hsmall

/-- Regions that fit are copied without a fault. -/
theorem ChunkPlan.Fits.copies (hfits : plan.Fits shape) (hsmall : plan.chunk.Small)
    (hsound : plan.Sound size shape) : plan.Copies size shape where
  gather buffer hbuffer :=
    Box.extract_ok hfits.inBuffer (hbuffer.trans hsound.size_eq) (hbuffer ▸ hsound.size_lt)
  cut decoded hdecoded :=
    ⟨_, Box.extract_eq hfits.inChunk hdecoded (hsmall.length_lt hdecoded)⟩
  patch buffer region decoded _ hregion hdecoded := by
    have hsize : region.length.toUInt64 = plan.chunkBox.packedSize plan.chunk.elementSize := by
      rw [Box.length_of_extract hregion, Box.packedSize_eq, Box.packedSize_eq,
        hfits.elementCount_eq]
    exact Box.update_ok hfits.inChunk (hdecoded.trans hsmall.byteCount_eq)
      (hsmall.length_lt hdecoded) hsize
  scatter region buffer hregion hbuffer := plan.scatter_ok hsound hbuffer hregion

theorem copies_of_planBatch (hsmall : ∀ entry ∈ batch, entry.chunk.Small)
    (h : planBatch batch size shape limit = .ok plans) :
    ∀ plan ∈ plans, plan.chunk.Small ∧ plan.Copies size shape := by
  intro plan hplan
  obtain ⟨hchunk, hfits⟩ := fits_of_planBatch hsmall h plan hplan
  exact ⟨hchunk, hfits.copies hchunk (sound_of_planBatch h plan hplan)⟩

/-! ### The work on a chunk -/

section Chunk

variable (hcodec : codec.Avoids AccessError.OfRegion) (hcopies : plan.Copies size shape)

include hcodec hcopies

theorem ChunkPlan.Copies.read_avoids : (plan.read codec limit).Avoids AccessError.OfRegion := by
  refine plan.read_avoids hcodec nofun (fun _ _ => nofun) (fun _ _ => nofun)
    (readChunk_length codec limit plan.chunk) ?_
  intro decoded hdecoded
  obtain ⟨region, hregion⟩ := hcopies.cut decoded hdecoded
  rw [hregion]
  exact Outcome.avoids_ok region

theorem ChunkPlan.Copies.write_avoids {region : Bytes} (hbuffer : buffer.length = size)
    (hregion : plan.gather shape buffer = .ok region) (storeEmpty : Bool) :
    (plan.write codec limit storeEmpty region).Avoids AccessError.OfRegion := by
  refine plan.write_avoids hcodec nofun (fun _ _ => nofun) (fun _ _ => nofun)
    (readChunk_length codec limit plan.chunk) storeEmpty region ?_
  intro decoded hdecoded
  rw [hcopies.patch buffer region decoded hbuffer hregion hdecoded]
  exact Outcome.avoids_ok ()

end Chunk

/-! ### Batches -/

section Batch

variable (hstore : pipeline.store.Avoids AccessError.OfRegion)
  (hcodec : pipeline.codec.Avoids AccessError.OfRegion)
  (hsmall : ∀ entry ∈ batch, entry.chunk.Small)
  (hplans : pipeline.plan batch shape buffer = .ok plans)

include hstore hcodec hsmall hplans

theorem storeChunks_avoids : Outcome.Avoids AccessError.OfRegion
    (pipeline.storeChunks rules schedule batch shape buffer state).1 := by
  have hcopies := copies_of_planBatch hsmall hplans
  obtain ⟨regions, hregions⟩ := exists_prepared_of_plan hplans
  rw [storeChunks_prepared hregions]
  refine writeRegions_avoids hstore ?_ state
  intro entry hentry
  obtain ⟨hplan, hregion⟩ := mem_of_prepare hplans hregions hentry
  exact (hcopies entry.1 hplan).2.write_avoids hcodec rfl hregion _

theorem retrieveChunks_avoids : Outcome.Avoids AccessError.OfRegion
    (pipeline.retrieveChunks rules schedule batch shape buffer state).1.outcome := by
  have hcopies := copies_of_planBatch hsmall hplans
  have hread : Outcome.Avoids AccessError.OfRegion
      (pipeline.readRegions rules schedule plans state).1 := by
    refine readRegions_avoids hstore ?_ state
    intro plan hplan
    exact (hcopies plan hplan).2.read_avoids hcodec
  rcases hended : pipeline.readRegions rules schedule plans state with ⟨error | regions, after⟩
  · rw [retrieveChunks_unread hplans hended]
    rw [hended] at hread
    exact Outcome.avoids_error.mpr (Outcome.avoids_error.mp hread)
  · -- once the regions have been read, all of them go into the buffer
    obtain ⟨-, hentries⟩ := scatterable_of_read hplans (congrArg Prod.fst hended)
    rw [retrieveChunks_read hplans hended, (scatterAll_ok hentries rfl).1]
    exact Outcome.avoids_ok ()

end Batch

/-- **A batch that is planned meets no error of a region.** The regions of every plan lie
inside their arrays and have the same number of elements, and all copies of them go well. So
storing and retrieving the batch end with no such error, and with none about the size of a
buffer, unless the store or the codec has one of its own. -/
theorem planned_batches_fit (config : Config) (hsmall : ∀ entry ∈ batch, entry.chunk.Small)
    (hplans : planBatch batch buffer.length shape config.maxChunkElements = .ok plans) :
    (∀ plan ∈ plans, plan.Fits shape ∧ plan.Copies buffer.length shape) ∧
    ∀ (σ : Type) (store : Store σ) (codec : Codec), store.Avoids AccessError.OfRegion →
      codec.Avoids AccessError.OfRegion →
      ∀ (rules : Rules) (schedule : Schedule) (state : σ) (error : AccessError),
        (Pipeline.storeChunks ⟨store, codec, config⟩ rules schedule batch shape buffer state).1 =
            .error error ∨
          (Pipeline.retrieveChunks ⟨store, codec, config⟩ rules schedule batch shape buffer
            state).1.outcome = .error error →
        ¬ error.OfRegion := by
  constructor
  · intro plan hplan
    exact ⟨(fits_of_planBatch hsmall hplans plan hplan).2,
      (copies_of_planBatch hsmall hplans plan hplan).2⟩
  · intro σ store codec hstore hcodec rules schedule state error hended
    let pipeline : Pipeline σ := ⟨store, codec, config⟩
    have hplan : pipeline.plan batch shape buffer = .ok plans := hplans
    rcases hended with hstored | hretrieved
    · exact storeChunks_avoids hstore hcodec hsmall hplan error hstored
    · exact retrieveChunks_avoids hstore hcodec hsmall hplan error hretrieved

namespace Pair

/-- A table in which the first chunk is stored with one element of its two. -/
def cutShort : Table := { values := ({} : Entries String Bytes).insert "a" [0xEE, 7] }

/-- What is said of a chunk with too few elements. -/
def tooShort : AccessError := .invalidChunk "a" (.decodedSize 1 2)

/-- The first chunk has to be patched and cannot be, but no region is to blame for it. -/
theorem planned_batches_fit_cutShort :
    (∀ entry ∈ Pair.batch, entry.chunk.Small) ∧
      (∃ plans, planBatch Pair.batch 3 [3] 50000000 = .ok plans ∧ plans.length = 2 ∧
        ∀ plan ∈ plans, plan.Fits [3] ∧ plan.Copies 3 [3]) ∧
      ((Pair.pipeline fun _ _ => false).storeChunks ⟨.drain, 2⟩ alternating Pair.batch [3]
        [1, 2, 3] cutShort).1 = .error tooShort ∧ ¬ tooShort.OfRegion := by
  have hsmall : ∀ entry ∈ Pair.batch, entry.chunk.Small := by
    rw [Pair.batch, List.forall_mem_cons, List.forall_mem_singleton]
    show 2 * 1 * 1 < _ ∧ 2 * 1 * 1 < _
    decide
  obtain ⟨plans, hplans, hlength⟩ :
      ∃ plans, planBatch Pair.batch 3 [3] 50000000 = .ok plans ∧ plans.length = 2 :=
    ⟨_, rfl, rfl⟩
  have hended : ((Pair.pipeline fun _ _ => false).storeChunks ⟨.drain, 2⟩ alternating Pair.batch
      [3] [1, 2, 3] cutShort).1 = .error tooShort := rfl
  obtain ⟨hfits, havoids⟩ := @planned_batches_fit _ _ [3] [1, 2, 3] {} hsmall hplans
  refine ⟨hsmall, ⟨plans, hplans, hlength, hfits⟩, hended, ?_⟩
  exact havoids Table _ _ (Table.avoids (fun _ _ => nofun) _) (Tagged.avoids (fun _ _ => nofun) none)
    _ _ _ _ (Or.inl hended)

end Pair

end ChunkedArray
