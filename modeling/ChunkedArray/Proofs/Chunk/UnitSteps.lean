import ChunkedArray.Proofs.Chunk.Batch
import ChunkedArray.Proofs.Chunk.Fault

/-!
# ChunkedArray.Proofs.Chunk.UnitSteps

The slices of a batch that has been built move by steps of one.

The check of the views of a request reads every slice of both selections and refuses another step
(`ChunkRequest.unitSteps`). What is put in place of other selectors has unit steps as well, the
whole axes of an ellipsis and the slices of integers and index arrays. So the planning of such a
batch fails for no step (`unitSteps_of_buildBatch`). It can still find more slices than axes,
since integers are not counted against the rank when views are checked.
-/

namespace ChunkedArray

/-- The error is not about a step, and if it is about a selection, this has too many slices. -/
def AccessError.Stepless (error : AccessError) : Prop :=
  (∀ length step, error ≠ .invalidSlice length step) ∧
    ∀ cause, error = .selection cause →
      ∃ selectors rank, rank < selectors ∧ cause = .tooManyIndices selectors rank

/-! ### Slices of selections -/

theorem Slice.stepOrDefault_eq_one {slice : Slice} :
    slice.stepOrDefault = 1 ↔ slice.step = none ∨ slice.step = some 1 := by
  rw [stepOrDefault]
  cases slice.step <;> simp

/-- The slice of an index array has a unit step. -/
theorem IndexArray.step_of_toSlice {array : IndexArray} {slice : Slice}
    (h : array.toSlice = .ok slice) : slice.stepOrDefault = 1 := by
  simp only [toSlice] at h
  split at h
  next =>
    obtain rfl := Except.ok.inj h
    rfl
  next =>
    split at h
    next =>
      obtain rfl := Except.ok.inj h
      rfl
    next => cases h

namespace Selection

variable {selection : Selection} {slices : List Slice} {shape result : Shape}
  {selector : Selector} {dropped : DropAxes} {pad : Bool} {fill rank : Nat}

/-- A selection that has a shape has been read to the end. -/
theorem unitSteps_of_resultShape (h : resultShape shape selection dropped pad = .ok result) :
    UnitSteps selection := by
  obtain ⟨block, reached, -, hwalk, -⟩ := resultShape_eq_ok_iff.mp h
  exact hwalk.step_eq_one

theorem mem_replaceEllipsis (h : selector ∈ replaceEllipsis fill selection) :
    selector ∈ selection ∨ selector = .slice .full := by
  by_cases hmem : .ellipsis ∈ selection
  · obtain ⟨front, back, rfl, -, hreplaced⟩ := replaceEllipsis_of_mem hmem fill
    rw [hreplaced] at h
    rcases List.mem_append.mp h with hfront | hrest
    · exact Or.inl (List.mem_append_left _ hfront)
    · rcases List.mem_append.mp hrest with hfull | hback
      · exact Or.inr (List.eq_of_mem_replicate hfull)
      · refine Or.inl (List.mem_append_right _ (List.mem_cons_of_mem _ ?_))
        exact (List.mem_filter.mp hback).1
  · rw [replaceEllipsis_of_not_mem hmem] at h
    exact Or.inl h

theorem UnitSteps.expandEllipsis (h : UnitSteps selection) (rank : Nat) :
    UnitSteps (selection.expandEllipsis rank) := by
  intro range hmem
  rcases mem_replaceEllipsis hmem with hmem | hfull
  · exact h range hmem
  · obtain rfl := Selector.slice.inj hfull
    rfl

/-- Slices are taken as they are, and other selectors become slices of unit step. -/
theorem UnitSteps.toSlices (h : UnitSteps selection) (hslices : selection.toSlices = .ok slices) :
    ∀ slice ∈ slices, slice.stepOrDefault = 1 := by
  intro slice hmem
  obtain ⟨selector, hselector, hslice⟩ :=
    Outcome.exists_of_mem_mapM (Outcome.mapM_eq_ok.mpr (toSlices_eq_ok.mp hslices).1) hmem
  cases selector with
  | slice range =>
    obtain rfl := Except.ok.inj hslice
    exact h range hselector
  | integer | ellipsis =>
    obtain rfl := Except.ok.inj hslice
    rfl
  | indexArray array => exact array.step_of_toSlice hslice

end Selection

namespace ChunkRequest

variable {request : ChunkRequest} {dropped : DropAxes} {entry : BatchEntry}

theorem unitSteps (h : request.checkViews dropped = .ok ()) :
    request.outSelection.UnitSteps ∧ request.chunkSelection.UnitSteps := by
  obtain ⟨out, hout, hrest⟩ := Outcome.bind_eq_ok.mp h
  obtain ⟨chunk, hchunk, -⟩ := Outcome.bind_eq_ok.mp hrest
  exact ⟨Selection.unitSteps_of_resultShape hout, Selection.unitSteps_of_resultShape hchunk⟩

theorem unitSteps_toEntry (hcheck : request.checkViews dropped = .ok ())
    (hentry : request.toEntry = .ok entry) :
    ∀ slice, slice ∈ entry.chunkSlices ∨ slice ∈ entry.outSlices → slice.stepOrDefault = 1 := by
  obtain ⟨hout, hchunk⟩ := unitSteps hcheck
  obtain ⟨houtSlices, hchunkSlices, -⟩ := toEntry_eq_ok.mp hentry
  intro slice hmem
  rcases hmem with hmem | hmem
  · exact (hchunk.expandEllipsis _).toSlices hchunkSlices slice hmem
  · exact (hout.expandEllipsis _).toSlices houtSlices slice hmem

end ChunkRequest

/-! ### Planning slices of unit step -/

theorem Box.stepless_of_ofSlices {slices : List Slice} {shape : Shape} {error : AccessError}
    (hunit : ∀ slice ∈ slices, slice.stepOrDefault = 1)
    (h : ofSlices slices shape = .error error) : error.Stepless := by
  have hfault := Outcome.error?_eq_some.mpr h
  rw [error?_ofSlices, slicesFault?] at hfault
  split at hfault
  next hrank =>
    obtain rfl := Option.some.inj hfault
    refine ⟨by simp, fun cause hcause => ⟨_, _, hrank, ?_⟩⟩
    exact (AccessError.selection.inj hcause).symm
  next =>
    obtain ⟨axis, hmem, hstep⟩ := List.exists_of_findSome?_eq_some hfault
    rw [if_pos (hunit axis.1 (List.of_mem_zip hmem).1)] at hstep
    cases hstep

theorem BatchEntry.stepless_of_plan {entry : BatchEntry} {size : Nat} {shape : Shape}
    {limit : UInt64} {error : AccessError}
    (hunit : ∀ slice, slice ∈ entry.chunkSlices ∨ slice ∈ entry.outSlices →
      slice.stepOrDefault = 1)
    (h : entry.plan size shape limit = .error error) : error.Stepless := by
  simp only [plan, Outcome.bind_eq_error] at h
  rcases h with hlength | ⟨_, -, hbuffer | ⟨_, -, hchunk | ⟨_, -, hout | ⟨_, -, hcounts⟩⟩⟩⟩
  · rcases Chunk.checkedLength_eq_error_iff.mp hlength with
      ⟨-, rfl⟩ | ⟨-, -, rfl⟩ | ⟨-, -, -, rfl⟩
    · exact ⟨by simp, by simp⟩
    · exact ⟨by simp, by simp⟩
    · exact ⟨by simp, by simp⟩
  · simp only [checkBuffer] at hbuffer
    split at hbuffer
    · cases hbuffer
    · obtain rfl := Except.error.inj hbuffer
      exact ⟨by simp, by simp⟩
  · exact Box.stepless_of_ofSlices (fun slice hmem => hunit slice (Or.inl hmem)) hchunk
  · exact Box.stepless_of_ofSlices (fun slice hmem => hunit slice (Or.inr hmem)) hout
  · split at hcounts
    · cases hcounts
    · obtain rfl := Except.error.inj hcounts
      exact ⟨by simp, by simp⟩

variable {requests : List ChunkRequest} {dropped : DropAxes} {entries : List BatchEntry}

/-- **A batch that has been built moves by steps of one.** Its planning fails for no step, whatever
the buffer and the limit are, and for no selection but one with more slices than axes. -/
theorem unitSteps_of_buildBatch (h : buildBatch requests dropped = .ok entries) :
    (∀ entry ∈ entries, ∀ slice, slice ∈ entry.chunkSlices ∨ slice ∈ entry.outSlices →
      slice.step = none ∨ slice.step = some 1) ∧
    ∀ size shape limit error, planBatch entries size shape limit = .error error →
      error.Stepless := by
  obtain ⟨hchecks, hentries⟩ := buildBatch_eq_ok.mp h
  have hunit : ∀ entry ∈ entries, ∀ slice, slice ∈ entry.chunkSlices ∨ slice ∈ entry.outSlices →
      slice.stepOrDefault = 1 := by
    intro entry hmem
    obtain ⟨request, hrequest, hentry⟩ :=
      Outcome.exists_of_mem_mapM (Outcome.mapM_eq_ok.mpr hentries) hmem
    exact ChunkRequest.unitSteps_toEntry (hchecks request hrequest) hentry
  refine ⟨fun entry hmem slice hslice => ?_, fun size shape limit error hplan => ?_⟩
  · exact Slice.stepOrDefault_eq_one.mp (hunit entry hmem slice hslice)
  · obtain ⟨before, entry, after, rfl, -, hentry⟩ := Outcome.exists_of_mapM_eq_error hplan
    exact BatchEntry.stepless_of_plan (hunit entry (by simp)) hentry

namespace Crammed

/-- A slice and an integer for a chunk of one axis. -/
def asked : ChunkRequest :=
  ⟨⟨"a", [4], "uint8", [0]⟩, [.slice ⟨some 0, some 2, none⟩, .integer 3], [.ellipsis]⟩

/-- The entry of the request. -/
def built : BatchEntry :=
  ⟨asked.chunk, [⟨some 0, some 2, none⟩, .unit 3 4], [.full]⟩

/-- The check of the views passes over the integer that finds no axis, and planning finds more
slices than axes. -/
theorem unitSteps_of_buildBatch_crammed :
    buildBatch [asked] [] = .ok [built] ∧
      (∀ slice, slice ∈ built.chunkSlices ∨ slice ∈ built.outSlices →
        slice.step = none ∨ slice.step = some 1) ∧
      planBatch [built] 4 [4] 50 = .error (.selection (.tooManyIndices 2 1)) ∧
      (AccessError.selection (.tooManyIndices 2 1)).Stepless := by
  have hbuilt : buildBatch [asked] [] = .ok [built] := rfl
  have hplan : planBatch [built] 4 [4] 50 = .error (.selection (.tooManyIndices 2 1)) := by decide
  obtain ⟨hsteps, herrors⟩ := unitSteps_of_buildBatch hbuilt
  exact ⟨hbuilt, hsteps built List.mem_cons_self, hplan, herrors 4 [4] 50 _ hplan⟩

end Crammed

end ChunkedArray
