import ChunkedArray.Pipeline.Basic
import ChunkedArray.Proofs.Pipeline.Access
import ChunkedArray.Proofs.Pipeline.Division

/-!
# ChunkedArray.Proofs.Pipeline.Retrieval

A batch is read into a buffer all or nothing.

Nothing is written before every region has been read, and then no write can fail: each
region has the size that its place in the buffer asks for (`readRegions_size`), and
writing a region never changes the size of the buffer.
-/

namespace ChunkedArray

variable {σ : Type} {plan : ChunkPlan} {size : Nat} {shape : Shape} {buffer : Bytes}

/-! ### Scattering -/

/-- A region of the right size for its place in the buffer. -/
def ChunkPlan.Takes (plan : ChunkPlan) (region : Bytes) : Prop :=
  region.length.toUInt64 = plan.outBox.packedSize plan.chunk.elementSize

theorem ChunkPlan.scatter_ok (hplan : plan.Sound size shape) (hbuffer : buffer.length = size)
    {region : Bytes} (hregion : plan.Takes region) :
    (plan.scatter shape region buffer).outcome = .ok () :=
  Box.update_ok hplan.outFits (hbuffer.trans hplan.size_eq) (hbuffer ▸ hplan.size_lt) hregion

theorem ChunkPlan.length_scatter (plan : ChunkPlan) (shape : Shape) (region buffer : Bytes) :
    (plan.scatter shape region buffer).buffer.length = buffer.length :=
  Box.length_update ..

theorem scatterAll_cons_ok {region : Bytes} {rest : List (ChunkPlan × Bytes)}
    (h : (plan.scatter shape region buffer).outcome = .ok ()) :
    scatterAll shape ((plan, region) :: rest) buffer =
      scatterAll shape rest (plan.scatter shape region buffer).buffer := by
  rw [scatterAll]
  rcases hscatter : plan.scatter shape region buffer with ⟨after, outcome⟩
  rw [hscatter] at h
  obtain rfl : outcome = .ok () := h
  rfl

theorem scatterAll_ok {entries : List (ChunkPlan × Bytes)}
    (hentries : ∀ entry ∈ entries, entry.1.Sound size shape ∧ entry.1.Takes entry.2)
    (hbuffer : buffer.length = size) :
    (scatterAll shape entries buffer).outcome = .ok () ∧
      (scatterAll shape entries buffer).buffer.length = size := by
  induction entries generalizing buffer with
  | nil => exact ⟨rfl, hbuffer⟩
  | cons entry entries ih =>
    obtain ⟨hplan, hregion⟩ := hentries entry (by simp)
    rw [scatterAll_cons_ok (entry.1.scatter_ok hplan hbuffer hregion)]
    refine ih (fun other hother => hentries other (by simp [hother])) ?_
    rw [ChunkPlan.length_scatter, hbuffer]

/-! ### Regions -/

/-- Every region that is read has the right size for its place in the buffer. -/
theorem readRegions_size (pipeline : Pipeline σ) (rules : Rules) (schedule : Schedule)
    {plans : List ChunkPlan} (hplans : ∀ plan ∈ plans, plan.Sound size shape) {state : σ}
    {regions : List Bytes}
    (hregions : (pipeline.readRegions rules schedule plans state).1 = .ok regions) :
    regions.length = plans.length ∧ ∀ entry ∈ plans.zip regions, entry.1.Takes entry.2 := by
  let jobs := plans.map (ChunkPlan.read pipeline.codec pipeline.limit)
  have hjobs : ∀ place job, jobs[place]? = some job →
      (Division.trivial pipeline.store).Admits (fun place outcome _ => ∀ plan,
        plans[place]? = some plan → OfSize (plan.outBox.packedSize plan.chunk.elementSize) outcome)
        state place job := by
    intro place job hjob
    rw [List.getElem?_map] at hjob
    obtain ⟨plan, hplan, rfl⟩ := Option.map_eq_some_iff.mp hjob
    refine ⟨Job.callsOnly_of_forall (fun _ => True.intro) _, ?_⟩
    refine Job.ensures_mono ?_
      (plan.read_size pipeline.codec pipeline.limit (hplans plan (List.mem_of_getElem? hplan)))
    rintro outcome ⟨⟩ hsize other hother
    obtain rfl : plan = other := Option.some.inj (hplan.symm.trans hother)
    exact hsize
  obtain ⟨hlength, hsize⟩ := Division.dispatch_ok hjobs (Prod.ext hregions rfl)
  rw [List.length_map] at hlength
  refine ⟨hlength, ?_⟩
  intro entry hentry
  obtain ⟨place, hplace, rfl⟩ := List.getElem_of_mem hentry
  rw [List.length_zip, hlength, Nat.min_self] at hplace
  rw [List.getElem_zip]
  exact hsize place (by omega) _ (List.getElem?_eq_getElem hplace) _ rfl

/-! ### Batches -/

section Batch

variable {pipeline : Pipeline σ} {rules : Rules} {schedule : Schedule} {batch : List BatchEntry}
  {plans : List ChunkPlan} {state state' : σ}

theorem retrieveChunks_unplanned {error : AccessError}
    (hplans : pipeline.plan batch shape buffer = .error error) :
    pipeline.retrieveChunks rules schedule batch shape buffer state =
      (.failed buffer error, state) := by
  simp only [Pipeline.retrieveChunks, hplans]

theorem retrieveChunks_unread {error : AccessError}
    (hplans : pipeline.plan batch shape buffer = .ok plans)
    (hread : pipeline.readRegions rules schedule plans state = (.error error, state')) :
    pipeline.retrieveChunks rules schedule batch shape buffer state =
      (.failed buffer error, state') := by
  simp only [Pipeline.retrieveChunks, hplans, hread]

theorem retrieveChunks_read {regions : List Bytes}
    (hplans : pipeline.plan batch shape buffer = .ok plans)
    (hread : pipeline.readRegions rules schedule plans state = (.ok regions, state')) :
    pipeline.retrieveChunks rules schedule batch shape buffer state =
      (scatterAll shape (plans.zip regions) buffer, state') := by
  simp only [Pipeline.retrieveChunks, hplans, hread]

/-- A batch that succeeds has been planned and read. -/
theorem retrieveChunks_eq_ok
    (h : (pipeline.retrieveChunks rules schedule batch shape buffer state).1.outcome = .ok ()) :
    ∃ plans regions state', pipeline.plan batch shape buffer = .ok plans ∧
      pipeline.readRegions rules schedule plans state = (.ok regions, state') ∧
      pipeline.retrieveChunks rules schedule batch shape buffer state =
        (scatterAll shape (plans.zip regions) buffer, state') := by
  cases hplans : pipeline.plan batch shape buffer with
  | error error =>
    rw [retrieveChunks_unplanned hplans] at h
    cases h
  | ok plans =>
    rcases hread : pipeline.readRegions rules schedule plans state with ⟨error | regions, state'⟩
    · rw [retrieveChunks_unread hplans hread] at h
      cases h
    · exact ⟨plans, regions, state', rfl, hread, retrieveChunks_read hplans hread⟩

/-- Once planning and reading have succeeded, all regions go into the buffer. -/
theorem scatterable_of_read {regions : List Bytes}
    (hplans : pipeline.plan batch shape buffer = .ok plans)
    (hread : (pipeline.readRegions rules schedule plans state).1 = .ok regions) :
    regions.length = plans.length ∧ ∀ entry ∈ plans.zip regions,
      entry.1.Sound buffer.length shape ∧ entry.1.Takes entry.2 := by
  have hsound := sound_of_planBatch hplans
  obtain ⟨hlength, hsize⟩ := readRegions_size pipeline rules schedule hsound hread
  exact ⟨hlength, fun entry hentry => ⟨hsound _ (List.of_mem_zip hentry).1, hsize entry hentry⟩⟩

end Batch

/-- **Reading a batch is all or nothing.** If it fails, the buffer is as it was; and once
planning and reading have succeeded, no region fails to be written to the buffer that the
regions before it have left. -/
theorem retrieveChunks_all_or_nothing (pipeline : Pipeline σ) (rules : Rules)
    (schedule : Schedule) (batch : List BatchEntry) (shape : Shape) (buffer : Bytes) (state : σ) :
    (∀ error,
      (pipeline.retrieveChunks rules schedule batch shape buffer state).1.outcome = .error error →
      (pipeline.retrieveChunks rules schedule batch shape buffer state).1.buffer = buffer) ∧
    ∀ plans regions, pipeline.plan batch shape buffer = .ok plans →
      (pipeline.readRegions rules schedule plans state).1 = .ok regions →
      regions.length = plans.length ∧
      (∀ before plan region after, plans.zip regions = before ++ (plan, region) :: after →
        (plan.scatter shape region (scatterAll shape before buffer).buffer).outcome = .ok ()) ∧
      (pipeline.retrieveChunks rules schedule batch shape buffer state).1.outcome = .ok () := by
  constructor
  · intro error herror
    cases hplans : pipeline.plan batch shape buffer with
    | error failure => rw [retrieveChunks_unplanned hplans]; rfl
    | ok plans =>
      rcases hread : pipeline.readRegions rules schedule plans state with
        ⟨failure | regions, state'⟩
      · rw [retrieveChunks_unread hplans hread]
        rfl
      · -- the scattering cannot fail, so there is no error that came from it
        obtain ⟨-, hentries⟩ := scatterable_of_read hplans (congrArg Prod.fst hread)
        rw [retrieveChunks_read hplans hread, (scatterAll_ok hentries rfl).1] at herror
        cases herror
  · intro plans regions hplans hregions
    obtain ⟨hlength, hentries⟩ := scatterable_of_read hplans hregions
    refine ⟨hlength, ?_, ?_⟩
    · intro before plan region after hsplit
      rw [hsplit] at hentries
      obtain ⟨hplan, hregion⟩ := hentries (plan, region) (by simp)
      have hbefore : ∀ entry ∈ before, entry.1.Sound buffer.length shape ∧
          entry.1.Takes entry.2 := fun entry hentry => hentries entry (by simp [hentry])
      exact plan.scatter_ok hplan (scatterAll_ok hbefore rfl).2 hregion
    · rw [retrieveChunks_read hplans (Prod.ext hregions rfl)]
      exact (scatterAll_ok hentries rfl).1

end ChunkedArray
