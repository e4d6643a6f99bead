import ChunkedArray.Pipeline.Basic
import ChunkedArray.Proofs.Chunk.Plan
import ChunkedArray.Proofs.Store.Job

/-!
# ChunkedArray.Proofs.Pipeline.Access

The work on one chunk as a job: which calls it makes, and of what size the regions are
that it reads.

Reading reads the key of the chunk and nothing else, if the codec does
(`ChunkPlan.read_readsOnly`). Writing works on the key of the chunk alone, and its only
call that changes anything is the last one (`ChunkPlan.write_commits`). A whole chunk is
written only from data of its exact size (`storeChunkJob_cases`). Whatever the codec and
the store answer, a region that is read has the size that the buffer of the
caller expects (`ChunkPlan.read_size`).
-/

namespace ChunkedArray

open Job

/-- The codec reads the chunk that it decodes a part of, and nothing else. -/
def Codec.ReadsOwn (codec : Codec) : Prop :=
  ∀ chunk box, (codec.partialDecode chunk box).ReadsOnly chunk.key

variable {codec : Codec} {limit : UInt64} {chunk : Chunk} {plan : ChunkPlan}

/-! ### Calls -/

theorem readChunk_readsOnly (codec : Codec) (limit : UInt64) (chunk : Chunk) :
    (readChunk codec limit chunk).ReadsOnly chunk.key := by
  refine callsOnly_bind_ofOutcome ?_
  intro count
  refine callsOnly_bind ((callsOnly_ofCall _ _).mpr ⟨rfl, rfl⟩) ?_
  intro stored
  cases stored with
  | none => trivial
  | some encoded =>
    exact callsOnly_bind_ofOutcome fun decoded => trivial

theorem ChunkPlan.read_readsOnly (hcodec : codec.ReadsOwn) (limit : UInt64) (plan : ChunkPlan) :
    (plan.read codec limit).ReadsOnly plan.chunk.key := by
  unfold read
  split
  · trivial
  split
  · exact readChunk_readsOnly codec limit plan.chunk
  refine callsOnly_bind_ofOutcome ?_
  intro count
  refine callsOnly_bind (hcodec plan.chunk plan.chunkBox) ?_
  intro answer
  cases answer with
  | some decoded => trivial
  | none =>
    exact callsOnly_bind (readChunk_readsOnly codec limit plan.chunk) fun decoded => trivial

theorem writeChunk_callsOnly (codec : Codec) (storeEmpty : Bool) (chunk : Chunk) (bytes : Bytes) :
    (writeChunk codec storeEmpty chunk bytes).CallsOnly (·.key = chunk.key) := by
  unfold writeChunk
  split
  · exact (callsOnly_ofCall _ _).mpr rfl
  · refine callsOnly_bind_ofOutcome ?_
    intro encoded
    exact (callsOnly_ofCall _ _).mpr rfl

/-- The calls of a write are those that read the chunk and those that write all of it. -/
theorem ChunkPlan.write_callsOnly_of {may : StoreCall → Prop} {storeEmpty : Bool}
    (hread : ∀ call, call.key = plan.chunk.key ∧ call.isRead → may call)
    (hwrite : ∀ bytes, (writeChunk codec storeEmpty plan.chunk bytes).CallsOnly may)
    (limit : UInt64) (data : Bytes) : (plan.write codec limit storeEmpty data).CallsOnly may := by
  unfold write
  split
  · trivial
  split
  · exact hwrite data
  refine callsOnly_bind (callsOnly_mono hread (readChunk_readsOnly codec limit plan.chunk)) ?_
  intro existing
  refine callsOnly_bind_ofOutcome ?_
  intro _
  exact hwrite _

theorem ChunkPlan.write_callsOnly (codec : Codec) (limit : UInt64) (storeEmpty : Bool)
    (plan : ChunkPlan) (data : Bytes) :
    (plan.write codec limit storeEmpty data).CallsOnly (·.key = plan.chunk.key) :=
  write_callsOnly_of (fun _ hcall => hcall.1) (writeChunk_callsOnly codec storeEmpty plan.chunk)
    limit data

/-! ### Committing -/

theorem readChunk_commits (codec : Codec) (limit : UInt64) (chunk : Chunk) :
    (readChunk codec limit chunk).Commits := by
  simp only [readChunk, ofOutcome, bind_eq]
  cases chunk.checkedLength limit with
  | error error => trivial
  | ok count =>
    refine ⟨fun error => ⟨error, rfl⟩, ?_⟩
    rintro (_ | encoded)
    · trivial
    · show (Job.bind (done (codec.decode chunk encoded)) _).Commits
      cases codec.decode chunk encoded with
      | error error => trivial
      | ok decoded => trivial

theorem writeChunk_commits (codec : Codec) (storeEmpty : Bool) (chunk : Chunk) (bytes : Bytes) :
    (writeChunk codec storeEmpty chunk bytes).Commits := by
  unfold writeChunk
  split
  · exact commits_ofCall _
  · simp only [ofOutcome, bind_eq]
    cases codec.encode chunk bytes with
    | error error => trivial
    | ok encoded => exact commits_ofCall _

theorem ChunkPlan.write_commits (codec : Codec) (limit : UInt64) (storeEmpty : Bool)
    (plan : ChunkPlan) (data : Bytes) : (plan.write codec limit storeEmpty data).Commits := by
  unfold write
  split
  · trivial
  split
  · exact writeChunk_commits codec storeEmpty plan.chunk data
  have hread := readChunk_readsOnly codec limit plan.chunk
  refine commits_bind hread (readChunk_commits codec limit plan.chunk) ?_
  intro existing
  refine commits_bind_ofOutcome ?_
  intro _
  exact writeChunk_commits codec storeEmpty plan.chunk _

/-! ### Whole chunks -/

section Whole

variable {σ : Type} {pipeline : Pipeline σ} {count : Nat} {decoded : Bytes} {error : AccessError}

/-- The exact size of a chunk in bytes. -/
def Chunk.byteCount (chunk : Chunk) : Nat := chunk.shape.elementCount * chunk.elementSize

theorem storeChunkJob_refused (h : chunk.checkedLength pipeline.limit = .error error) :
    pipeline.storeChunkJob chunk decoded = .fail error := by
  rw [Pipeline.storeChunkJob, h]
  rfl

theorem storeChunkJob_stopped (h : chunk.checkedLength pipeline.limit = .ok count)
    (hlarge : UInt64.size ≤ chunk.byteCount) :
    pipeline.storeChunkJob chunk decoded = .fail .overflow := by
  obtain ⟨-, -, rfl⟩ := Chunk.checkedLength_eq_ok h
  rw [Pipeline.storeChunkJob, h]
  show (ofOutcome (chunk.sizeOf _) >>= _) = _
  rw [Chunk.sizeOf_eq_error.mpr ⟨hlarge, rfl⟩]
  rfl

/-- What is asked of the data of a chunk that has passed the limit. -/
theorem storeChunkJob_sized (h : chunk.checkedLength pipeline.limit = .ok count)
    (hsmall : chunk.byteCount < UInt64.size) : pipeline.storeChunkJob chunk decoded =
      if decoded.length ≠ chunk.byteCount then
        .fail (.bufferSize chunk.shape chunk.byteCount.toUInt64 decoded.length)
      else writeChunk pipeline.codec pipeline.config.storeEmptyChunks chunk decoded := by
  obtain ⟨-, -, rfl⟩ := Chunk.checkedLength_eq_ok h
  rw [Pipeline.storeChunkJob, h]
  show (ofOutcome (chunk.sizeOf _) >>= _) = _
  rw [Chunk.sizeOf_eq_ok.mpr ⟨rfl, hsmall⟩]
  rfl

/-- **A job that stores a whole chunk** fails before its first call, or writes data of exactly
the size of the chunk. -/
theorem storeChunkJob_cases (pipeline : Pipeline σ) (chunk : Chunk) (decoded : Bytes) :
    (∃ error, pipeline.storeChunkJob chunk decoded = .fail error) ∨
    0 < chunk.elementSize ∧ decoded.length = chunk.byteCount ∧
      pipeline.storeChunkJob chunk decoded =
        writeChunk pipeline.codec pipeline.config.storeEmptyChunks chunk decoded := by
  cases hcount : chunk.checkedLength pipeline.limit with
  | error error => exact Or.inl ⟨error, storeChunkJob_refused hcount⟩
  | ok count =>
    rcases Nat.lt_or_ge chunk.byteCount UInt64.size with hsmall | hlarge
    · rw [storeChunkJob_sized hcount hsmall]
      split
      next => exact Or.inl ⟨_, rfl⟩
      next hlength =>
        exact Or.inr ⟨(Chunk.checkedLength_eq_ok hcount).1, not_not.mp hlength, rfl⟩
    · exact Or.inl ⟨.overflow, storeChunkJob_stopped hcount hlarge⟩

end Whole

/-! ### Sizes -/

/-- The answers of a store of which nothing is known. -/
abbrev anyAnswer : Answering Unit := fun _ _ _ _ => True

/-- A result has so many bytes, as far as a machine word can tell. -/
def OfSize (size : UInt64) (outcome : Outcome Bytes) : Prop :=
  ∀ bytes, outcome = .ok bytes → bytes.length.toUInt64 = size

theorem ofSize_error (size : UInt64) (error : AccessError) : OfSize size (.error error) := by
  intro bytes h
  cases h

/-- Bytes that pass the check of sizes are exactly as many as the elements take. -/
theorem Chunk.checkSize_eq_ok {count : Nat} {fault : Nat → UInt64 → ChunkFault}
    {decoded part : Bytes} (h : chunk.checkSize count fault decoded = .ok part) :
    decoded = part ∧ part.length = count * chunk.elementSize := by
  simp only [checkSize, Outcome.bind_eq_ok] at h
  obtain ⟨expected, hexpected, h⟩ := h
  split at h
  next hsize =>
    obtain rfl := Except.ok.inj h
    exact ⟨rfl, hsize.trans (sizeOf_eq_ok.mp hexpected).1.symm⟩
  next => cases h

theorem length_filled (chunk : Chunk) (count : Nat) :
    (chunk.filled count).length = count * chunk.elementSize := by
  simp [Chunk.filled, Chunk.elementSize]

/-- A chunk that is read has exactly the size of the chunk. -/
theorem readChunk_length (codec : Codec) (limit : UInt64) (chunk : Chunk) :
    (readChunk codec limit chunk).Ensures anyAnswer
      (fun outcome _ => ∀ bytes, outcome = .ok bytes → bytes.length = chunk.byteCount) () := by
  refine ensures_bind ?_
  rw [ensures_ofOutcome]
  cases hcount : chunk.checkedLength limit with
  | error error => exact nofun
  | ok count =>
    obtain ⟨-, -, rfl⟩ := Chunk.checkedLength_eq_ok hcount
    refine ensures_bind ((ensures_ofCall _ _ _ _).mpr ?_)
    intro answer _ _
    rcases answer with error | _ | encoded
    · exact nofun
    · -- a chunk that is not there reads as copies of its fill value
      intro bytes h
      obtain rfl := Except.ok.inj h
      exact length_filled chunk _
    · refine ensures_bind ?_
      rw [ensures_ofOutcome]
      cases codec.decode chunk encoded with
      | error error => exact nofun
      | ok decoded => exact fun bytes h => (Chunk.checkSize_eq_ok h).2

/-- **A region that is read has the size that the buffer expects of it**, whatever the
codec decodes and the store answers. -/
theorem ChunkPlan.read_size (codec : Codec) (limit : UInt64) {size : Nat} {shape : Shape}
    (hplan : plan.Sound size shape) : (plan.read codec limit).Ensures anyAnswer
      (fun outcome _ => OfSize (plan.outBox.packedSize plan.chunk.elementSize) outcome) () := by
  have hsize : plan.outBox.packedSize plan.chunk.elementSize =
      plan.chunkBox.packedSize plan.chunk.elementSize := by
    rw [Box.packedSize, Box.packedSize, hplan.wrappedCount_eq]
  rw [hsize]
  unfold read
  split
  next hvacant =>
    intro bytes h
    obtain rfl := Except.ok.inj h
    rw [Box.packedSize_eq, Box.elementCount_of_vacant hvacant, Nat.zero_mul, List.length_nil]
  split
  next hcovers =>
    rw [Box.packedSize_eq, Box.elementCount, Box.covers_iff.mp hcovers, Box.lengths_whole]
    refine ensures_mono ?_ (readChunk_length codec limit plan.chunk)
    exact fun outcome _ hlength bytes h => congrArg Nat.toUInt64 (hlength bytes h)
  next =>
    refine ensures_bind ((ensures_ofOutcome _ _ _ _).mpr ?_)
    cases plan.chunk.checkedLength limit with
    | error error => exact ofSize_error _ _
    | ok count =>
      refine ensures_bind (ensures_of_forall ?_ _ _)
      rintro (error | _ | decoded) ⟨⟩
      · exact ofSize_error _ _
      · -- the codec has no answer, so the region is cut from the whole chunk
        refine ensures_bind (ensures_of_forall ?_ _ _)
        rintro (error | decoded) ⟨⟩
        · exact ofSize_error _ _
        · exact fun bytes h => Box.length_of_extract h
      · intro bytes h
        rw [(Chunk.checkSize_eq_ok h).2, toUInt64_mul, toUInt64_toNat]
        rfl

end ChunkedArray
