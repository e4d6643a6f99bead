import ChunkedArray.Chunk.Plan
import ChunkedArray.Proofs.Chunk.Size
import ChunkedArray.Proofs.Region.Copy
import ChunkedArray.Proofs.Region.Resolve

/-!
# ChunkedArray.Proofs.Chunk.Plan

What the planning of a batch has checked (`ChunkPlan.Sound`): the buffer has exactly the
size of its shape, both regions fit their arrays, and they have the same number of
elements as far as a machine word can tell.
-/

namespace ChunkedArray

/-- A buffer that passes the check has the size of its array, and this is a machine
word. -/
theorem checkBuffer_eq_ok {size width : Nat} {shape : Shape}
    (h : checkBuffer size shape width = .ok ()) :
    size = shape.elementCount * width.toUInt64.toNat ∧ size < UInt64.size := by
  simp only [checkBuffer] at h
  split at h
  next hcount =>
    obtain ⟨count, hchecked, rfl⟩ := Option.map_eq_some_iff.mp hcount
    refine ⟨?_, count.toNat_lt⟩
    rw [Shape.toNat_of_checkedCount hchecked, Shape.elementCount_append, Shape.elementCount_cons,
      Shape.elementCount_nil, Nat.mul_one]
  next => cases h

/-! ### Plans -/

/-- What planning has checked for a buffer of `size` bytes. -/
structure ChunkPlan.Sound (plan : ChunkPlan) (size : Nat) (shape : Shape) : Prop where
  elementSize_pos : 0 < plan.chunk.elementSize
  size_eq : size = shape.elementCount * plan.chunk.elementSize.toUInt64.toNat
  size_lt : size < UInt64.size
  chunkFits : plan.chunkBox.fits plan.chunk.shape
  outFits : plan.outBox.fits shape
  wrappedCount_eq : plan.chunkBox.wrappedCount = plan.outBox.wrappedCount

/-- The plan of an entry holds what the slices of the entry resolve to. -/
structure BatchEntry.PlannedAs (entry : BatchEntry) (shape : Shape) (plan : ChunkPlan) : Prop where
  chunk_eq : plan.chunk = entry.chunk
  chunkBox_eq : Box.ofSlices entry.chunkSlices entry.chunk.shape = .ok plan.chunkBox
  outBox_eq : Box.ofSlices entry.outSlices shape = .ok plan.outBox

theorem BatchEntry.plan_eq_ok {entry : BatchEntry} {size : Nat} {shape : Shape} {limit : UInt64}
    {plan : ChunkPlan} (h : entry.plan size shape limit = .ok plan) :
    entry.PlannedAs shape plan ∧ plan.Sound size shape := by
  simp only [BatchEntry.plan, Outcome.bind_eq_ok] at h
  obtain ⟨count, hcount, ⟨⟩, hbuffer, chunkBox, hchunkBox, outBox, houtBox, h⟩ := h
  split at h
  next hwrapped =>
    obtain rfl := Except.ok.inj h
    obtain ⟨hsize, hlt⟩ := checkBuffer_eq_ok hbuffer
    exact ⟨⟨rfl, hchunkBox, houtBox⟩, (Chunk.checkedLength_eq_ok hcount).1, hsize, hlt,
      Box.fits_of_ofSlices hchunkBox, Box.fits_of_ofSlices houtBox, hwrapped⟩
  next => cases h

theorem planBatch_eq_ok {batch : List BatchEntry} {size : Nat} {shape : Shape} {limit : UInt64}
    {plans : List ChunkPlan} (h : planBatch batch size shape limit = .ok plans) :
    List.Forall₂ (fun entry plan => entry.PlannedAs shape plan ∧ plan.Sound size shape)
      batch plans :=
  (Outcome.mapM_eq_ok.mp h).imp fun _ _ => BatchEntry.plan_eq_ok

/-- Every plan of a batch is sound. -/
theorem sound_of_planBatch {batch : List BatchEntry} {size : Nat} {shape : Shape} {limit : UInt64}
    {plans : List ChunkPlan} (h : planBatch batch size shape limit = .ok plans) :
    ∀ plan ∈ plans, plan.Sound size shape := by
  intro plan hplan
  obtain ⟨entry, -, hentry⟩ := Outcome.exists_of_mem_mapM h hplan
  exact (BatchEntry.plan_eq_ok hentry).2

/-- The chunk of every plan of a batch has a number of elements below the limit. -/
theorem checkedLength_of_planBatch {batch : List BatchEntry} {size : Nat} {shape : Shape}
    {limit : UInt64} {plans : List ChunkPlan} (h : planBatch batch size shape limit = .ok plans) :
    ∀ plan ∈ plans, ∃ count, plan.chunk.checkedLength limit = .ok count := by
  intro plan hplan
  obtain ⟨entry, -, hentry⟩ := Outcome.exists_of_mem_mapM h hplan
  rw [(BatchEntry.plan_eq_ok hentry).1.chunk_eq]
  simp only [BatchEntry.plan, Outcome.bind_eq_ok] at hentry
  obtain ⟨count, hcount, -⟩ := hentry
  exact ⟨count, hcount⟩

end ChunkedArray
