import ChunkedArray.Proofs.Chunk.Plan

/-!
# ChunkedArray.Proofs.Chunk.Fault

What can be wrong with an entry of a batch, said without planning it.

`BatchEntry.Faulty` names the six faults, each by itself; `BatchEntry.fault?` is the error
of the first check of an entry that fails. All counts are exact here. Where the chunks can
be counted in 128 bits (`Shape.Countable`), planning finds exactly these faults: the plan of
a batch fails with the fault of the first entry that has one (`error?_planBatch`).
-/

namespace ChunkedArray

/-! ### Errors of outcomes -/

namespace Outcome

variable {α β : Type}

/-- The error of an outcome that is one. -/
def error? : Outcome α → Option AccessError
  | .ok _ => none
  | .error error => some error

theorem error?_eq_some {outcome : Outcome α} {error : AccessError} :
    outcome.error? = some error ↔ outcome = .error error := by
  cases outcome <;> simp [error?]

theorem error?_eq_none {outcome : Outcome α} :
    outcome.error? = none ↔ ∃ value, outcome = .ok value := by
  cases outcome <;> simp [error?]

theorem error?_bind_ok {outcome : Outcome α} {value : α} (h : outcome = .ok value)
    (next : α → Outcome β) : Outcome.error? (outcome >>= next) = (next value).error? := by
  rw [h]
  rfl

/-- A list of steps fails with the error of the first of them that fails. -/
theorem error?_mapM (step : α → Outcome β) (items : List α) :
    Outcome.error? (items.mapM step) = items.findSome? fun item => (step item).error? := by
  induction items with
  | nil => rfl
  | cons item items ih =>
    rw [List.mapM_cons, List.findSome?_cons]
    cases hitem : step item with
    | error error => rfl
    | ok value =>
      show _ = items.findSome? fun item => (step item).error?
      rw [← ih, error?_bind_ok rfl]
      cases items.mapM step <;> rfl

end Outcome

/-! ### The faults of an entry -/

/-- The axis lengths that are not zero multiply to a number of 128 bits. -/
def Shape.Countable (shape : Shape) : Prop :=
  elementCount (shape.filter (· ≠ 0)) < UInt64.size * UInt64.size

/-- Why a chunk is refused for its size: its elements have none, or there are too many. -/
def Chunk.fault? (chunk : Chunk) (limit : UInt64) : Option AccessError :=
  if chunk.fill = [] then some (.invalidChunk chunk.key .emptyFill)
  else if limit.toNat < chunk.shape.elementCount then
    some (.chunkTooLarge chunk.shape.elementCount limit)
  else none

/-- Why slices are refused for a shape: there are more of them than axes, or one of them
moves by another step than one. -/
def slicesFault? (slices : List Slice) (shape : Shape) : Option AccessError :=
  if shape.length < slices.length then
    some (.selection (.tooManyIndices slices.length shape.length))
  else (slices.zip shape).findSome? fun axis =>
    if axis.1.stepOrDefault = 1 then none
    else some (.invalidSlice axis.2 axis.1.stepOrDefault)

/-- The exact number of elements that slices select of an array. -/
def selectedCount (slices : List Slice) (shape : Shape) : Nat :=
  (selectedCoordinates slices shape).length

namespace BatchEntry

/-- Why the two regions of an entry do not go together. -/
def countFault? (entry : BatchEntry) (shape : Shape) : Option AccessError :=
  let inChunk := selectedCount entry.chunkSlices entry.chunk.shape
  let inBuffer := selectedCount entry.outSlices shape
  if inChunk = inBuffer then none
  else some (.regionSizeMismatch inChunk.toUInt64 inBuffer.toUInt64)

/-- The checks of an entry in their order, each with the error that it fails with. -/
def checks (entry : BatchEntry) (size : Nat) (shape : Shape) (limit : UInt64) :
    List (Option AccessError) :=
  [entry.chunk.fault? limit, (checkBuffer size shape entry.chunk.elementSize).error?,
    slicesFault? entry.chunkSlices entry.chunk.shape, slicesFault? entry.outSlices shape,
    entry.countFault? shape]

/-- The error of the first check of an entry that fails. -/
def fault? (entry : BatchEntry) (size : Nat) (shape : Shape) (limit : UInt64) :
    Option AccessError :=
  (entry.checks size shape limit).findSome? id

/-- An entry has one of the six faults for a buffer of `size` bytes and a limit to the
elements of a chunk. -/
inductive Faulty (entry : BatchEntry) (size : Nat) (shape : Shape) (limit : UInt64) : Prop
  /-- The fill value of the chunk is empty. -/
  | emptyFill (h : entry.chunk.fill = [])
  /-- The chunk has more elements than the limit. -/
  | tooLarge (h : limit.toNat < entry.chunk.shape.elementCount)
  /-- The buffer does not hold elements of this size. -/
  | bufferSize (error : AccessError)
    (h : checkBuffer size shape entry.chunk.elementSize = .error error)
  /-- A list of slices is longer than the rank of its array. -/
  | tooManySlices (h : entry.chunk.shape.length < entry.chunkSlices.length ∨
      shape.length < entry.outSlices.length)
  /-- A slice moves by another step than one. -/
  | step (slice : Slice) (hmem : slice ∈ entry.chunkSlices ∨ slice ∈ entry.outSlices)
    (h : slice.stepOrDefault ≠ 1)
  /-- The regions differ in their number of elements. -/
  | counts (h : selectedCount entry.chunkSlices entry.chunk.shape ≠
      selectedCount entry.outSlices shape)

end BatchEntry

variable {entry : BatchEntry} {size : Nat} {shape : Shape} {limit : UInt64}

/-! ### Faulty entries -/

theorem Chunk.isSome_fault? {chunk : Chunk} : (chunk.fault? limit).isSome ↔
    chunk.fill = [] ∨ limit.toNat < chunk.shape.elementCount := by
  unfold fault?
  split
  next hfill => simp [hfill]
  next hfill =>
    split
    next hlimit => simp [hlimit]
    next hlimit => simp [hfill, hlimit]

theorem exists_mem_zip {slices : List Slice} {shape : Shape} (h : slices.length ≤ shape.length)
    {slice : Slice} (hmem : slice ∈ slices) : ∃ length, (slice, length) ∈ slices.zip shape := by
  obtain ⟨place, hplace, rfl⟩ := List.getElem_of_mem hmem
  have hlt : place < (slices.zip shape).length := by
    rw [List.length_zip]
    omega
  have hpair := List.getElem_mem hlt
  rw [List.getElem_zip] at hpair
  exact ⟨_, hpair⟩

theorem isSome_slicesFault? {slices : List Slice} {shape : Shape} :
    (slicesFault? slices shape).isSome ↔
      shape.length < slices.length ∨ ∃ slice ∈ slices, slice.stepOrDefault ≠ 1 := by
  unfold slicesFault?
  split
  next hrank => simp [hrank]
  next hrank =>
    rw [List.findSome?_isSome_iff]
    constructor
    · rintro ⟨⟨slice, length⟩, hmem, hstep⟩
      refine Or.inr ⟨slice, (List.of_mem_zip hmem).1, ?_⟩
      intro hone
      simp [hone] at hstep
    · rintro (hlong | ⟨slice, hmem, hstep⟩)
      · exact absurd hlong hrank
      · obtain ⟨length, hzip⟩ := exists_mem_zip (Nat.le_of_not_lt hrank) hmem
        exact ⟨_, hzip, by simp [hstep]⟩

theorem BatchEntry.isSome_countFault? : (entry.countFault? shape).isSome ↔
    selectedCount entry.chunkSlices entry.chunk.shape ≠ selectedCount entry.outSlices shape := by
  simp only [countFault?]
  split
  next heq => simp [heq]
  next hne => simp [hne]

/-- **An entry is faulty if one of its checks fails.** -/
theorem BatchEntry.faulty_iff :
    entry.Faulty size shape limit ↔ (entry.fault? size shape limit).isSome := by
  have hchecks : (entry.fault? size shape limit).isSome ↔
      (entry.chunk.fault? limit).isSome ∨
      (checkBuffer size shape entry.chunk.elementSize).error?.isSome ∨
      (slicesFault? entry.chunkSlices entry.chunk.shape).isSome ∨
      (slicesFault? entry.outSlices shape).isSome ∨ (entry.countFault? shape).isSome := by
    rw [fault?, List.findSome?_isSome_iff]
    simp [checks]
  rw [hchecks, Chunk.isSome_fault?, isSome_slicesFault?, isSome_slicesFault?,
    isSome_countFault?, Option.isSome_iff_exists]
  simp only [Outcome.error?_eq_some]
  constructor
  · rintro (h | h | ⟨error, h⟩ | h | ⟨slice, hmem, h⟩ | h)
    · exact Or.inl (Or.inl h)
    · exact Or.inl (Or.inr h)
    · exact Or.inr (Or.inl ⟨error, h⟩)
    · rcases h with h | h
      · exact Or.inr (Or.inr (Or.inl (Or.inl h)))
      · exact Or.inr (Or.inr (Or.inr (Or.inl (Or.inl h))))
    · rcases hmem with hmem | hmem
      · exact Or.inr (Or.inr (Or.inl (Or.inr ⟨slice, hmem, h⟩)))
      · exact Or.inr (Or.inr (Or.inr (Or.inl (Or.inr ⟨slice, hmem, h⟩))))
    · exact Or.inr (Or.inr (Or.inr (Or.inr h)))
  · rintro ((h | h) | ⟨error, h⟩ | (h | ⟨slice, hmem, h⟩) | (h | ⟨slice, hmem, h⟩) | h)
    · exact .emptyFill h
    · exact .tooLarge h
    · exact .bufferSize error h
    · exact .tooManySlices (Or.inl h)
    · exact .step slice (Or.inl hmem) h
    · exact .tooManySlices (Or.inr h)
    · exact .step slice (Or.inr hmem) h
    · exact .counts h

/-! ### Planning finds the faults -/

/-- Where the axes that are not of length zero can be counted in 128 bits, no partial product
leaves them. -/
theorem Shape.Countable.not_reaches {shape : Shape} (h : shape.Countable) :
    ¬ shape.Reaches (UInt64.size * UInt64.size) := by
  intro hreaches
  obtain ⟨front, ⟨back, rfl⟩, hbound⟩ := hreaches
  have hzero : 0 ∉ front := by
    intro hmem
    rw [elementCount_of_zero_mem hmem] at hbound
    exact absurd hbound (by decide)
  exact Nat.not_lt_of_le (Nat.le_trans hbound (elementCount_le_filter hzero back)) h

/-- The guard of a chunk that can be held against the limit fails with the fault of the
chunk. -/
theorem Chunk.error?_checkedLength {chunk : Chunk}
    (h : chunk.fill ≠ [] → ¬ chunk.shape.Reaches (UInt64.size * UInt64.size)) (limit : UInt64) :
    (chunk.checkedLength limit).error? = chunk.fault? limit := by
  have hfill : chunk.elementSize = 0 ↔ chunk.fill = [] := List.length_eq_zero_iff
  simp only [checkedLength, fault?, hfill]
  split
  · rfl
  next hne =>
    rw [guardedCount_eq_ok.mpr ⟨rfl, h hne⟩, Outcome.ok_bind]
    split
    · rfl
    · rfl

/-- A buffer that passes the check is of a shape whose elements can be counted by a machine
word, whatever the size of an element is. -/
theorem elementCount_lt_of_checkBuffer {size width : Nat} {shape : Shape}
    (h : checkBuffer size shape width = .ok ()) : shape.elementCount < UInt64.size := by
  simp only [checkBuffer] at h
  split at h
  next hcount =>
    obtain ⟨total, htotal, -⟩ := Option.map_eq_some_iff.mp hcount
    rw [Shape.checkedCount, List.foldlM_append] at htotal
    obtain ⟨count, hshape, -⟩ := Option.bind_eq_some_iff.mp htotal
    rw [← Shape.toNat_of_checkedCount hshape]
    exact count.toNat_lt
  next => cases h

theorem Slice.error?_toSpan (slice : Slice) (length : UInt64) :
    (slice.toSpan length).error? = if slice.stepOrDefault = 1 then none
      else some (.invalidSlice length slice.stepOrDefault) := by
  by_cases hstep : slice.stepOrDefault = 1
  · have hone : (slice.onAxis length).step = 1 := hstep
    simp only [toSpan, hone, hstep, if_true, Outcome.error?]
  · simp only [toSpan, hstep, if_false, Outcome.error?, onAxis_step]

namespace Box

theorem error?_ofAxes (slices : List Slice) (shape : Shape) : (ofAxes slices shape).error? =
    (slices.zip shape).findSome? fun axis => if axis.1.stepOrDefault = 1 then none
      else some (.invalidSlice axis.2 axis.1.stepOrDefault) := by
  induction shape generalizing slices with
  | nil => cases slices <;> rfl
  | cons length shape ih =>
    cases slices with
    | nil => rfl
    | cons slice slices =>
      rw [List.zip_cons_cons, List.findSome?_cons, ← slice.error?_toSpan, ← ih, ofAxes]
      cases slice.toSpan length with
      | error error => rfl
      | ok span => cases ofAxes slices shape <;> rfl

theorem error?_ofSlices (slices : List Slice) (shape : Shape) :
    (ofSlices slices shape).error? = slicesFault? slices shape := by
  rw [slicesFault?, ← error?_ofAxes, ofSlices]
  split
  · rfl
  · rfl

theorem elementCount_of_ofSlices {slices : List Slice} {shape : Shape} {box : Box}
    (h : ofSlices slices shape = .ok box) : box.elementCount = selectedCount slices shape := by
  rw [← length_coordinates, coordinates_ofSlices h, selectedCount]

end Box

/-- **The plan of an entry fails with the fault of the entry**, and is made if there is
none. -/
theorem BatchEntry.error?_plan (hsmall : entry.chunk.shape.Countable) (size : Nat)
    (shape : Shape) (limit : UInt64) :
    (entry.plan size shape limit).error? = entry.fault? size shape limit := by
  simp only [plan, fault?, checks, List.findSome?_cons, List.findSome?_nil, id,
    ← Chunk.error?_checkedLength fun _ => hsmall.not_reaches,
    ← Box.error?_ofSlices]
  cases hlength : entry.chunk.checkedLength limit with
  | error error => rfl
  | ok count =>
  cases hbuffer : checkBuffer size shape entry.chunk.elementSize with
  | error error => rfl
  | ok _ =>
  cases hchunk : Box.ofSlices entry.chunkSlices entry.chunk.shape with
  | error error => rfl
  | ok chunkBox =>
  cases hout : Box.ofSlices entry.outSlices shape with
  | error error => rfl
  | ok outBox =>
  -- both regions are small enough to be counted by machine words
  have hchunkCount : chunkBox.elementCount < UInt64.size := by
    obtain ⟨-, hlimit, -⟩ := Chunk.checkedLength_eq_ok hlength
    exact Nat.lt_of_le_of_lt (Box.elementCount_le (Box.fits_of_ofSlices hchunk))
      (Nat.lt_of_le_of_lt hlimit limit.toNat_lt)
  have houtCount : outBox.elementCount < UInt64.size :=
    Nat.lt_of_le_of_lt (Box.elementCount_le (Box.fits_of_ofSlices hout))
      (elementCount_lt_of_checkBuffer hbuffer)
  have hcounts : chunkBox.elementCount = outBox.elementCount ↔
      chunkBox.wrappedCount = outBox.wrappedCount := by
    refine ⟨congrArg Nat.toUInt64, fun heq => ?_⟩
    rw [← toNat_toUInt64 hchunkCount, ← toNat_toUInt64 houtCount]
    exact congrArg UInt64.toNat heq
  have hfault : entry.countFault? shape =
      if chunkBox.wrappedCount = outBox.wrappedCount then none
      else some (.regionSizeMismatch chunkBox.wrappedCount outBox.wrappedCount) := by
    simp only [countFault?, ← Box.elementCount_of_ofSlices hchunk,
      ← Box.elementCount_of_ofSlices hout, hcounts]
    rfl
  show Outcome.error? (if chunkBox.wrappedCount = outBox.wrappedCount
      then .ok { chunk := entry.chunk, chunkBox, outBox : ChunkPlan }
      else .error (.regionSizeMismatch chunkBox.wrappedCount outBox.wrappedCount)) =
    [entry.countFault? shape].findSome? id
  rw [hfault]
  by_cases hequal : chunkBox.wrappedCount = outBox.wrappedCount
  · rw [if_pos hequal, if_pos hequal]
    rfl
  · rw [if_neg hequal, if_neg hequal]
    rfl

/-- **The plan of a batch fails with the fault of the first faulty entry**, and is made if
there is none. -/
theorem error?_planBatch {batch : List BatchEntry}
    (hsmall : ∀ entry ∈ batch, entry.chunk.shape.Countable) (size : Nat) (shape : Shape)
    (limit : UInt64) : (planBatch batch size shape limit).error? =
      batch.findSome? fun entry => entry.fault? size shape limit := by
  rw [planBatch, Outcome.error?_mapM]
  induction batch with
  | nil => rfl
  | cons entry batch ih =>
    rw [List.findSome?_cons, List.findSome?_cons,
      BatchEntry.error?_plan (hsmall entry (by simp)) size shape limit,
      ih fun other hother => hsmall other (by simp [hother])]

end ChunkedArray
