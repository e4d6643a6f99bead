import ChunkedArray.Proofs.Grid.Basic
import ChunkedArray.Proofs.Pipeline.Keys
import ChunkedArray.Proofs.Pipeline.Retrieval

/-!
# ChunkedArray.Proofs.Pipeline.Moments

The states that a store passes through while requests are carried out.

What no call that is made breaks (`Store.Preserves`) holds after a batch of jobs, in
whatever order their calls are made (`Preserves.dispatch`). To speak of the moments in
between, a store can be given a memory of all states that its calls leave
(`Store.remembering`). Such a store answers as it would without the memory, and so do the
pipelines over it (`Pipeline.afterEach_remembering`).
-/

namespace ChunkedArray

variable {α σ τ : Type} {rules : Rules} {store : Store σ}

/-! ### What calls preserve -/

/-- What holds of the state is kept by all calls that may be made. -/
def Store.Preserves (store : Store σ) (may : StoreCall → Prop) (holds : σ → Prop) : Prop :=
  ∀ call state, may call → holds state → holds (store.answer call state).2

/-- What is left of the job in the slot makes only calls that may be made. -/
def Slot.CallsOnly (may : StoreCall → Prop) : Slot α → Prop
  | waiting job | working job => job.CallsOnly may
  | finished | abandoned => True

namespace Store.Preserves

variable {may : StoreCall → Prop} {holds : σ → Prop}

theorem run (h : store.Preserves may holds) {job : Job α} (hjob : job.CallsOnly may) {state : σ}
    (hstate : holds state) : holds (job.run store state).2 := by
  induction job generalizing state with
  | done outcome => exact hstate
  | ask call next ih => exact ih _ (hjob.2 _) (h call state hjob.1 hstate)

/-- One step of a crew makes at most one call, of a job that is at work. -/
theorem step (h : store.Preserves may holds) {crew crew' : Crew α} {state state' : σ}
    (hcrew : (∀ slot ∈ crew.slots, slot.CallsOnly may) ∧ holds state)
    (hstep : Crew.Step rules store (crew, state) (crew', state')) :
    (∀ slot ∈ crew'.slots, slot.CallsOnly may) ∧ holds state' := by
  obtain ⟨hslots, hstate⟩ := hcrew
  have hset : ∀ place (slot : Slot α), slot.CallsOnly may →
      ∀ other ∈ crew.slots.set place slot, other.CallsOnly may := by
    intro place slot hslot other hother
    rcases List.mem_or_eq_of_mem_set hother with hold | rfl
    · exact hslots other hold
    · exact hslot
  cases hstep with
  | @start _ _ place job hslot =>
    have hjob : job.CallsOnly may := hslots _ (List.mem_of_getElem? hslot)
    exact ⟨hset place (.working job) hjob, hstate⟩
  | @call _ _ _ call next hslot =>
    obtain ⟨hmay, hnext⟩ : may call ∧ ∀ answer, (next answer).CallsOnly may :=
      hslots _ (List.mem_of_getElem? hslot)
    exact ⟨hset _ _ (hnext _), h call state hmay hstate⟩
  | arrive hslot => exact ⟨hset _ _ True.intro, hstate⟩
  | giveUp hslot hmay => exact ⟨hset _ _ True.intro, hstate⟩

theorem dispatch (h : store.Preserves may holds) {jobs : List (Job α)}
    (hjobs : ∀ job ∈ jobs, job.CallsOnly may) {state : σ} (hstate : holds state)
    (schedule : Schedule) : holds (dispatch rules store schedule jobs state).2 := by
  have hstart : (∀ slot ∈ (Crew.ofJobs jobs).slots, slot.CallsOnly may) ∧ holds state := by
    refine ⟨?_, hstate⟩
    intro slot hslot
    obtain ⟨job, hjob, rfl⟩ := List.mem_map.mp hslot
    exact hjobs job hjob
  exact (Crew.finish_induction (motive := fun crew state =>
    (∀ slot ∈ crew.slots, slot.CallsOnly may) ∧ holds state) hstart
    (fun hcrew hstep => h.step hcrew hstep) schedule).2

end Store.Preserves

/-! ### Stores with more in their state -/

/-- The store answers all calls as another one does on a part of its state. -/
def Store.Extends (large : Store τ) (part : τ → σ) (store : Store σ) : Prop :=
  ∀ call state, store.answer call (part state) =
    ((large.answer call state).1, part (large.answer call state).2)

namespace Store.Extends

variable {large : Store τ} {part : τ → σ}

theorem run (h : large.Extends part store) (job : Job α) (state : τ) :
    job.run store (part state) = ((job.run large state).1, part (job.run large state).2) := by
  induction job generalizing state with
  | done outcome => rfl
  | ask call next ih => simp only [Job.run_ask, h call state, ih]

theorem move (h : large.Extends part store) (crew : Crew α) (state : τ) (next : Move) :
    crew.move rules store (part state) next =
      ((crew.move rules large state next).1, part (crew.move rules large state next).2) := by
  cases next with
  | start place =>
    simp only [Crew.move]
    split <;> rfl
  | proceed place =>
    simp only [Crew.move]
    split
    · rfl
    · rename_i call next hslot
      exact congrArg (fun answered : Outcome call.Answer × σ =>
        (crew.setSlot place (.working (next answered.1)), answered.2)) (h call state)
    · rfl
  | giveUp place =>
    simp only [Crew.move]
    split <;> rfl

theorem follow (h : large.Extends part store) (schedule : Schedule) (crew : Crew α) (state : τ) :
    crew.follow rules store schedule (part state) =
      ((crew.follow rules large schedule state).1,
        part (crew.follow rules large schedule state).2) := by
  induction schedule generalizing crew state with
  | nil => rfl
  | cons next schedule ih => simp only [Crew.follow, h.move, ih]

theorem settle (h : large.Extends part store) (crew : Crew α) (state : τ) (place : Nat) :
    crew.settle rules store (part state) place =
      ((crew.settle rules large state place).1, part (crew.settle rules large state place).2) := by
  simp only [Crew.settle]
  split
  · split
    · rfl
    · simp only [h.run]
  · simp only [h.run]
  · rfl

theorem settleAll (h : large.Extends part store) (places : List Nat) (crew : Crew α) (state : τ) :
    crew.settleAll rules store places (part state) =
      ((crew.settleAll rules large places state).1,
        part (crew.settleAll rules large places state).2) := by
  induction places generalizing crew state with
  | nil => rfl
  | cons place places ih => simp only [Crew.settleAll, h.settle, ih]

theorem dispatch (h : large.Extends part store) (rules : Rules) (schedule : Schedule)
    (jobs : List (Job α)) (state : τ) :
    dispatch rules store schedule jobs (part state) =
      ((dispatch rules large schedule jobs state).1,
        part (dispatch rules large schedule jobs state).2) := by
  simp only [ChunkedArray.dispatch, Crew.finish, h.follow, h.settleAll]

section Pipeline

variable (codec : Codec) (config : Config) {batch : List BatchEntry} {shape : Shape}
  {buffer : Bytes}

theorem storeChunks (h : large.Extends part store) (schedule : Schedule) (state : τ) :
    (Pipeline.mk store codec config).storeChunks rules schedule batch shape buffer (part state) =
      (((Pipeline.mk large codec config).storeChunks rules schedule batch shape buffer state).1,
        part ((Pipeline.mk large codec config).storeChunks rules schedule batch shape buffer
          state).2) := by
  -- what is prepared does not depend on the store
  cases hlarge : (Pipeline.mk large codec config).prepare batch shape buffer with
  | error error =>
    have hstore : (Pipeline.mk store codec config).prepare batch shape buffer = .error error :=
      hlarge
    rw [storeChunks_unprepared hstore, storeChunks_unprepared hlarge]
  | ok regions =>
    have hstore : (Pipeline.mk store codec config).prepare batch shape buffer = .ok regions :=
      hlarge
    rw [storeChunks_prepared hstore, storeChunks_prepared hlarge, writeRegions_eq, writeRegions_eq]
    exact congrArg (fun ended : Outcome (List Unit) × σ => (ended.1.map fun _ => (), ended.2))
      (h.dispatch rules schedule ((Pipeline.mk large codec config).writeJobs regions) state)

theorem retrieveChunks (h : large.Extends part store) (schedule : Schedule) (state : τ) :
    (Pipeline.mk store codec config).retrieveChunks rules schedule batch shape buffer
        (part state) =
      (((Pipeline.mk large codec config).retrieveChunks rules schedule batch shape buffer state).1,
        part ((Pipeline.mk large codec config).retrieveChunks rules schedule batch shape buffer
          state).2) := by
  cases hlarge : (Pipeline.mk large codec config).plan batch shape buffer with
  | error error =>
    have hstore : (Pipeline.mk store codec config).plan batch shape buffer = .error error := hlarge
    rw [retrieveChunks_unplanned hstore, retrieveChunks_unplanned hlarge]
  | ok plans =>
    have hstore : (Pipeline.mk store codec config).plan batch shape buffer = .ok plans := hlarge
    have hended : (Pipeline.mk store codec config).readRegions rules schedule plans (part state) =
        (((Pipeline.mk large codec config).readRegions rules schedule plans state).1,
          part ((Pipeline.mk large codec config).readRegions rules schedule plans state).2) :=
      h.dispatch rules schedule ((Pipeline.mk large codec config).readJobs plans) state
    rcases hread : (Pipeline.mk large codec config).readRegions rules schedule plans state with
      ⟨error | regions, after⟩
    · rw [hread] at hended
      rw [retrieveChunks_unread hstore hended, retrieveChunks_unread hlarge hread]
    · rw [hread] at hended
      rw [retrieveChunks_read hstore hended, retrieveChunks_read hlarge hread]

/-- Pipelines over the two stores answer requests alike. -/
theorem perform (h : large.Extends part store) (request : Request) (state : τ) :
    (Pipeline.mk store codec config).perform request (part state) =
      (((Pipeline.mk large codec config).perform request state).1,
        part ((Pipeline.mk large codec config).perform request state).2) := by
  cases request with
  | storeChunk chunk decoded =>
    simp only [Pipeline.perform, Pipeline.storeChunk, h.run]
    rfl
  | storeChunks rules schedule batch shape buffer =>
    simp only [Pipeline.perform, h.storeChunks codec config schedule state]
  | retrieveChunk chunk =>
    simp only [Pipeline.perform, Pipeline.retrieveChunk, h.run]
    rfl
  | retrieveWholeChunks rules schedule chunks =>
    simp only [Pipeline.perform, Pipeline.retrieveWholeChunks, h.dispatch]
    rfl
  | retrieveChunks rules schedule batch shape buffer =>
    simp only [Pipeline.perform, h.retrieveChunks codec config schedule state]

end Pipeline

end Store.Extends

/-! ### Runs of requests -/

variable {pipeline : Pipeline σ} {may : StoreCall → Prop} {holds : σ → Prop} {request : Request}
  {requests : List Request} {state : σ}

/-- The request makes only calls that may be made. -/
def Pipeline.MakesOnly (pipeline : Pipeline σ) (may : StoreCall → Prop) : Request → Prop
  | .storeChunk chunk decoded => (pipeline.storeChunkJob chunk decoded).CallsOnly may
  | .storeChunks _ _ batch shape buffer =>
    ∀ regions, pipeline.prepare batch shape buffer = .ok regions →
      ∀ job ∈ pipeline.writeJobs regions, job.CallsOnly may
  | .retrieveChunk chunk => (readChunk pipeline.codec pipeline.limit chunk).CallsOnly may
  | .retrieveWholeChunks _ _ chunks =>
    ∀ job ∈ chunks.map (readChunk pipeline.codec pipeline.limit), job.CallsOnly may
  | .retrieveChunks _ _ batch shape buffer =>
    ∀ plans, pipeline.plan batch shape buffer = .ok plans →
      ∀ job ∈ pipeline.readJobs plans, job.CallsOnly may

/-- The state that some requests leave, whether they succeed or fail. -/
def Pipeline.afterEach (pipeline : Pipeline σ) (requests : List Request) (state : σ) : σ :=
  requests.foldl (fun state request => (pipeline.perform request state).2) state

theorem Store.Preserves.perform (h : pipeline.store.Preserves may holds)
    (hrequest : pipeline.MakesOnly may request) (hstate : holds state) :
    holds (pipeline.perform request state).2 := by
  cases request with
  | storeChunk chunk decoded => exact h.run hrequest hstate
  | storeChunks rules schedule batch shape buffer =>
    simp only [Pipeline.perform]
    cases hregions : pipeline.prepare batch shape buffer with
    | error error =>
      rw [storeChunks_unprepared hregions]
      exact hstate
    | ok regions =>
      rw [storeChunks_prepared hregions]
      exact h.dispatch (hrequest regions hregions) hstate schedule
  | retrieveChunk chunk => exact h.run hrequest hstate
  | retrieveWholeChunks rules schedule chunks => exact h.dispatch hrequest hstate schedule
  | retrieveChunks rules schedule batch shape buffer =>
    simp only [Pipeline.perform]
    cases hplans : pipeline.plan batch shape buffer with
    | error error =>
      rw [retrieveChunks_unplanned hplans]
      exact hstate
    | ok plans =>
      have hended : holds (pipeline.readRegions rules schedule plans state).2 :=
        h.dispatch (hrequest plans hplans) hstate schedule
      rcases hread : pipeline.readRegions rules schedule plans state with ⟨error | regions, after⟩
      · rw [hread] at hended
        rw [retrieveChunks_unread hplans hread]
        exact hended
      · rw [hread] at hended
        rw [retrieveChunks_read hplans hread]
        exact hended

theorem Store.Preserves.afterEach (h : pipeline.store.Preserves may holds)
    (hrequests : ∀ request ∈ requests, pipeline.MakesOnly may request) (hstate : holds state) :
    holds (pipeline.afterEach requests state) := by
  induction requests generalizing state with
  | nil => exact hstate
  | cons request requests ih =>
    exact ih (fun other hother => hrequests other (by simp [hother]))
      (h.perform (hrequests request (by simp)) hstate)

/-! ### Memory -/

/-- The store with a memory of the states that its calls have left, the latest last. -/
def Store.remembering (store : Store σ) : Store (σ × List σ) where
  answer call state :=
    let (answer, after) := store.answer call state.1
    (answer, after, state.2 ++ [after])

/-- The pipeline over the store with a memory. -/
def Pipeline.remembering (pipeline : Pipeline σ) : Pipeline (σ × List σ) :=
  ⟨pipeline.store.remembering, pipeline.codec, pipeline.config⟩

/-- The states that the store passes through while some requests are carried out, the first
one and those after each call. -/
def Pipeline.moments (pipeline : Pipeline σ) (requests : List Request) (state : σ) : List σ :=
  (pipeline.remembering.afterEach requests (state, [state])).2

theorem Store.remembering_extends (store : Store σ) : store.remembering.Extends Prod.fst store :=
  fun _ _ => rfl

/-- The memory changes nothing else. -/
theorem Pipeline.afterEach_remembering (pipeline : Pipeline σ) (requests : List Request)
    (state : σ × List σ) :
    pipeline.afterEach requests state.1 = (pipeline.remembering.afterEach requests state).1 := by
  induction requests generalizing state with
  | nil => rfl
  | cons request requests ih =>
    have hperform : (pipeline.perform request state.1).2 =
        (pipeline.remembering.perform request state).2.1 :=
      congrArg Prod.snd
        (pipeline.store.remembering_extends.perform pipeline.codec pipeline.config request state)
    show pipeline.afterEach requests (pipeline.perform request state.1).2 = _
    rw [hperform]
    exact ih _

theorem Pipeline.makesOnly_of_forall (pipeline : Pipeline σ) (h : ∀ call, may call)
    (request : Request) : pipeline.MakesOnly may request := by
  cases request with
  | storeChunk chunk decoded => exact Job.callsOnly_of_forall h _
  | storeChunks rules schedule batch shape buffer =>
    exact fun _ _ job _ => Job.callsOnly_of_forall h job
  | retrieveChunk chunk => exact Job.callsOnly_of_forall h _
  | retrieveWholeChunks rules schedule chunks => exact fun job _ => Job.callsOnly_of_forall h job
  | retrieveChunks rules schedule batch shape buffer =>
    exact fun _ _ job _ => Job.callsOnly_of_forall h job

/-- The last moment is the state that the requests leave. -/
theorem Pipeline.afterEach_mem_moments (pipeline : Pipeline σ) (requests : List Request)
    (state : σ) : pipeline.afterEach requests state ∈ pipeline.moments requests state := by
  have hlast : pipeline.remembering.store.Preserves (fun _ => True)
      (fun state => state.1 ∈ state.2) := by
    intro call state _ _
    exact List.mem_append_right _ (List.mem_singleton_self _)
  have hmem : (pipeline.remembering.afterEach requests (state, [state])).1 ∈
      pipeline.moments requests state :=
    hlast.afterEach
      (fun request _ => pipeline.remembering.makesOnly_of_forall (fun _ => True.intro) request)
      (List.mem_singleton_self _)
  rw [← pipeline.afterEach_remembering requests (state, [state])] at hmem
  exact hmem

/-- **What no call breaks holds at every moment.** -/
theorem Store.Preserves.moments (h : pipeline.store.Preserves may holds)
    (hrequests : ∀ request ∈ requests, pipeline.MakesOnly may request) (hstate : holds state) :
    ∀ moment ∈ pipeline.moments requests state, holds moment := by
  have hmemory : pipeline.remembering.store.Preserves may
      (fun state => holds state.1 ∧ ∀ moment ∈ state.2, holds moment) := by
    rintro call state hmay ⟨hnow, hbefore⟩
    have hafter := h call state.1 hmay hnow
    refine ⟨hafter, ?_⟩
    intro moment hmoment
    rcases List.mem_append.mp hmoment with hold | hnew
    · exact hbefore moment hold
    · rw [List.mem_singleton.mp hnew]
      exact hafter
  have hmakes : ∀ request ∈ requests, pipeline.remembering.MakesOnly may request := by
    intro request hrequest
    have hmay := hrequests request hrequest
    cases request <;> exact hmay
  exact (hmemory.afterEach hmakes ⟨hstate, by simpa using hstate⟩).2

end ChunkedArray
