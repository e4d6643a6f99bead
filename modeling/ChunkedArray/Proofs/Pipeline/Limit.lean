import ChunkedArray.Proofs.Chunk.Fault
import ChunkedArray.Proofs.Pipeline.Access
import ChunkedArray.Proofs.Pipeline.Refusal

/-!
# ChunkedArray.Proofs.Pipeline.Limit

What stands between a chunk of any shape and the store: the limit on its elements, and the
size that the data for a whole chunk must have.

Both are products that are taken without a check, the number of elements in 128 bits and the
size in bytes in 64. `guards_exact_or_stopped` says that nothing gets past them but data of the
exact size of a chunk with an exact number of elements within the limit. What does not get past
is refused for what is wrong with it, unless a product leaves its bits; then the program stops.
The chunk `vast` is one of these: it has `2 ^ 128` elements, and it stops the program where it
ought to be refused as too large.
-/

namespace ChunkedArray

variable {σ : Type} {pipeline : Pipeline σ} {chunk : Chunk} {limit : UInt64} {count : Nat}
  {decoded : Bytes} {config : Config} {error : AccessError}

namespace Chunk

theorem elementSize_pos : 0 < chunk.elementSize ↔ chunk.fill ≠ [] := List.length_pos_iff

/-- A chunk does not pass the limit for what is wrong with it, unless the program stops. -/
theorem checkedLength_eq_error_iff_fault : chunk.checkedLength limit = .error error ↔
    chunk.fill ≠ [] ∧ chunk.shape.Reaches (UInt64.size * UInt64.size) ∧ error = .overflow ∨
    (chunk.fill = [] ∨ ¬ chunk.shape.Reaches (UInt64.size * UInt64.size)) ∧
      chunk.fault? limit = some error := by
  by_cases hfill : chunk.fill = []
  · rw [← error?_checkedLength (absurd hfill), Outcome.error?_eq_some]
    simp [hfill]
  · by_cases hstops : chunk.shape.Reaches (UInt64.size * UInt64.size)
    · rw [checkedLength_eq_error_iff]
      simp [hfill, hstops, elementSize_pos, Nat.ne_of_gt (elementSize_pos.mpr hfill)]
    · rw [← error?_checkedLength fun _ => hstops, Outcome.error?_eq_some]
      simp [hfill, hstops]

end Chunk

/-! ### The job of a whole chunk -/

/-- Storing the whole chunk fails with the error before anything is done: whatever the store
and the codec are, no call is recorded and the store stays as it is. -/
def RefusedUnstored (config : Config) (chunk : Chunk) (decoded : Bytes) (error : AccessError) :
    Prop :=
  ∀ (σ : Type) (store : Store σ) (codec : Codec) (state : σ),
    (Pipeline.mk store.recorded codec config).storeChunk chunk decoded (state, []) =
      (.error error, state, [])

theorem refusedUnstored_of_job
    (h : ∀ (σ : Type) (store : Store σ) (codec : Codec),
      (Pipeline.mk store codec config).storeChunkJob chunk decoded = .fail error) :
    RefusedUnstored config chunk decoded error := by
  intro σ store codec state
  rw [Pipeline.storeChunk, h]
  rfl

/-- Why data of a wrong size is refused once the chunk has passed the limit: for its size, if
the size of the chunk is a machine word. -/
def Chunk.sizeFault (chunk : Chunk) (decoded : Bytes) : AccessError :=
  if chunk.byteCount < UInt64.size then
    .bufferSize chunk.shape chunk.byteCount.toUInt64 decoded.length
  else .overflow

theorem storeChunkJob_missized (h : chunk.checkedLength pipeline.limit = .ok count)
    (hlength : decoded.length = chunk.byteCount → UInt64.size ≤ chunk.byteCount) :
    pipeline.storeChunkJob chunk decoded = .fail (chunk.sizeFault decoded) := by
  rw [Chunk.sizeFault]
  split
  next hsmall =>
    rw [storeChunkJob_sized h hsmall]
    exact if_pos fun heq => Nat.not_le_of_lt hsmall (hlength heq)
  next hlarge => exact storeChunkJob_stopped h (Nat.le_of_not_lt hlarge)

/-- The codec that stores chunks as they are. -/
def Codec.plain : Codec where
  encode _ decoded := .ok decoded
  decode _ encoded := .ok encoded

/-- What passes both guards is not refused: a codec that takes everything stores it. -/
theorem not_refusedUnstored (h : chunk.checkedLength config.maxChunkElements = .ok count)
    (hsmall : chunk.byteCount < UInt64.size) (hlength : decoded.length = chunk.byteCount) :
    ¬ RefusedUnstored config chunk decoded error := by
  intro hrefused
  have hrun := hrefused Cell Cell.store Codec.plain none
  have hlimit : chunk.checkedLength
      (Pipeline.mk Cell.store.recorded Codec.plain config).limit = .ok count := h
  rw [Pipeline.storeChunk, storeChunkJob_sized hlimit hsmall, if_neg (not_not_intro hlength),
    writeChunk] at hrun
  split at hrun
  · cases hrun
  · cases hrun

/-! ### The guards -/

/-- **The guards of a whole chunk are exact, unless a product leaves its bits.** The limit lets a
chunk pass with its exact number of elements, and refuses it for its empty fill value or for the
exact number above the limit; where a partial product leaves 128 bits the program stops instead.
Data that is not of the exact size of the chunk is refused with nothing done, and so is data for a
size that is no number of 64 bits. No shape and no data get past the guards otherwise. -/
theorem guards_exact_or_stopped (chunk : Chunk) (config : Config) (decoded : Bytes) :
    let limit := config.maxChunkElements
    let count := chunk.shape.elementCount
    let stops := chunk.shape.Reaches (UInt64.size * UInt64.size)
    (∀ n, chunk.checkedLength limit = .ok n ↔
      chunk.fill ≠ [] ∧ ¬ stops ∧ count = n ∧ n ≤ limit.toNat) ∧
    (∀ error, chunk.checkedLength limit = .error error ↔
      chunk.fill ≠ [] ∧ stops ∧ error = .overflow ∨
        (chunk.fill = [] ∨ ¬ stops) ∧ chunk.fault? limit = some error) ∧
    (∀ error, chunk.checkedLength limit = .error error →
      RefusedUnstored config chunk decoded error) ∧
    (∀ n, chunk.checkedLength limit = .ok n → decoded.length ≠ chunk.byteCount →
      RefusedUnstored config chunk decoded (chunk.sizeFault decoded)) ∧
    ((¬ ∃ error, RefusedUnstored config chunk decoded error) ↔
      (∃ n, chunk.checkedLength limit = .ok n) ∧ decoded.length = chunk.byteCount ∧
        chunk.byteCount < UInt64.size) := by
  intro limit count stops
  have hrefused : ∀ error, chunk.checkedLength limit = .error error →
      RefusedUnstored config chunk decoded error := fun error hguard =>
    refusedUnstored_of_job fun _ _ _ => storeChunkJob_refused hguard
  have hmissized : ∀ n, chunk.checkedLength limit = .ok n →
      (decoded.length = chunk.byteCount → UInt64.size ≤ chunk.byteCount) →
      RefusedUnstored config chunk decoded (chunk.sizeFault decoded) := fun n hguard hlength =>
    refusedUnstored_of_job fun _ _ _ => storeChunkJob_missized hguard hlength
  refine ⟨?_, fun error => Chunk.checkedLength_eq_error_iff_fault, hrefused,
    fun n hguard hlength => hmissized n hguard (absurd · hlength), ?_⟩
  · intro n
    rw [Chunk.checkedLength_eq_ok_iff, Chunk.elementSize_pos]
  · constructor
    · intro hpassed
      cases hguard : chunk.checkedLength limit with
      | error error => exact absurd ⟨error, hrefused error hguard⟩ hpassed
      | ok n =>
        refine ⟨⟨n, rfl⟩, ?_⟩
        by_contra hother
        refine hpassed ⟨_, hmissized n hguard fun hlength => ?_⟩
        exact Nat.le_of_not_lt fun hsmall => hother ⟨hlength, hsmall⟩
    · intro h hany
      obtain ⟨⟨n, hguard⟩, hlength, hsmall⟩ := h
      obtain ⟨error, herror⟩ := hany
      exact not_refusedUnstored hguard hsmall hlength herror

/-- A chunk of `2 ^ 128` elements of one byte. -/
def vast : Chunk := ⟨"c", [4294967296, 4294967296, 4294967296, 4294967296], "uint8", [0]⟩

/-- A chunk of `2 ^ 63` elements of two bytes. -/
def wide : Chunk := ⟨"w", [9223372036854775808], "uint16", [0, 0]⟩

/-- The guards at work: a chunk above the default limit is refused for its exact number of
elements, and data of a wrong size for its size; `vast` stops the program at the default limit,
and `wide` under the largest one. Data of the right size is not refused. -/
theorem guards_exact_or_stopped_cases :
    Chunk.checkedLength ⟨"c", [9223372036854775808, 4], "uint8", [0]⟩ 50000000 =
        .error (.chunkTooLarge 36893488147419103232 50000000) ∧
      RefusedUnstored {} ⟨"c", [2, 2], "uint8", [0]⟩ [1, 2, 3] (.bufferSize [2, 2] 4 3) ∧
      RefusedUnstored {} vast [] .overflow ∧
      RefusedUnstored { maxChunkElements := largestWord } wide [] .overflow ∧
      ¬ ∃ error, RefusedUnstored {} ⟨"c", [2, 2], "uint8", [0]⟩ [1, 2, 3, 4] error := by
  obtain ⟨-, hlarge, -⟩ := guards_exact_or_stopped
    ⟨"c", [9223372036854775808, 4], "uint8", [0]⟩ {} []
  obtain ⟨hpasses, -, -, hsized, -⟩ := guards_exact_or_stopped
    ⟨"c", [2, 2], "uint8", [0]⟩ {} [1, 2, 3]
  obtain ⟨-, hstops, hrefused, -⟩ := guards_exact_or_stopped vast {} []
  obtain ⟨hwide, -, -, hunsized, -⟩ := guards_exact_or_stopped wide
    { maxChunkElements := largestWord } []
  obtain ⟨-, -, -, -, hwritten⟩ := guards_exact_or_stopped
    ⟨"c", [2, 2], "uint8", [0]⟩ {} [1, 2, 3, 4]
  have hfour := (hpasses 4).mpr ⟨by decide, by decide, by decide, by decide⟩
  refine ⟨(hlarge _).mpr (Or.inr ⟨Or.inr (by decide), by decide⟩),
    hsized 4 hfour (by decide), hrefused _ ((hstops _).mpr (Or.inl ⟨by decide, by decide, rfl⟩)),
    hunsized 9223372036854775808 ((hwide _).mpr ⟨by decide, by decide, by decide, by decide⟩)
      (by decide), hwritten.mpr ⟨⟨4, hfour⟩, by decide, by decide⟩⟩

/-- Not every chunk above the limit is refused as too large: `vast` stops the program. -/
theorem not_checkedLength_exact :
    ¬ ∀ (chunk : Chunk) (limit : UInt64), chunk.fill ≠ [] →
      limit.toNat < chunk.shape.elementCount →
      chunk.checkedLength limit = .error (.chunkTooLarge chunk.shape.elementCount limit) := by
  intro hrefused
  have hstopped : vast.checkedLength 50000000 = .error .overflow :=
    Chunk.checkedLength_eq_error_iff.mpr (Or.inr (Or.inl ⟨by decide, by decide, rfl⟩))
  cases hstopped.symm.trans (hrefused vast 50000000 (by decide) (by decide))

end ChunkedArray
