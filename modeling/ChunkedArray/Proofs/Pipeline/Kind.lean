import ChunkedArray.Proofs.Pipeline.Access
import ChunkedArray.Proofs.Pipeline.Division
import ChunkedArray.Proofs.Pipeline.Keys

/-!
# ChunkedArray.Proofs.Pipeline.Kind

Kinds of errors that do not come up.

A store avoids a kind of error if it answers no call with one, and a job does if it ends
with none as long as no call is answered with one (`Job.Avoids`). The jobs of a batch avoid
a kind that the store, the codec and the steps of the work on a chunk avoid; so does the
whole batch then, in whatever order the calls are made (`readRegions_avoids`,
`writeRegions_avoids`). Where a step avoids a kind only for some bytes, it is enough that the
chunk is never read as others (`Job.Gives`).
-/

namespace ChunkedArray

variable {α β σ : Type} {kind : AccessError → Prop}

/-- The outcome is no error of the kind. -/
def Outcome.Avoids (kind : AccessError → Prop) (outcome : Outcome α) : Prop :=
  ∀ error, outcome = .error error → ¬ kind error

/-- The answers that are no error of the kind. -/
def avoiding (kind : AccessError → Prop) : Answering Unit :=
  fun _ _ answer _ => Outcome.Avoids kind answer

/-- The job ends with no error of the kind, as long as its calls are answered with none. -/
def Job.Avoids (kind : AccessError → Prop) (job : Job α) : Prop :=
  job.Ensures (avoiding kind) (fun outcome _ => Outcome.Avoids kind outcome) ()

/-- Whatever the answers to its calls are, a result of the job is good. -/
def Job.Gives (job : Job α) (good : α → Prop) : Prop :=
  job.Ensures anyAnswer (fun outcome _ => ∀ value, outcome = .ok value → good value) ()

/-- The store answers no call with an error of the kind. -/
def Store.Avoids (kind : AccessError → Prop) (store : Store σ) : Prop :=
  ∀ call state, Outcome.Avoids kind (store.answer call state).1

/-- The codec fails with no error of the kind that is not one of the store's. -/
structure Codec.Avoids (kind : AccessError → Prop) (codec : Codec) : Prop where
  encode : ∀ chunk decoded, Outcome.Avoids kind (codec.encode chunk decoded)
  decode : ∀ chunk encoded, Outcome.Avoids kind (codec.decode chunk encoded)
  partialDecode : ∀ chunk box, (codec.partialDecode chunk box).Avoids kind

/-! ### Outcomes and jobs -/

namespace Outcome

theorem avoids_ok (value : α) : Outcome.Avoids kind (.ok value) := by
  intro error h
  cases h

theorem avoids_error {error : AccessError} :
    Outcome.Avoids kind (.error error : Outcome α) ↔ ¬ kind error :=
  ⟨fun h => h error rfl, by rintro h other ⟨⟩; exact h⟩

end Outcome

namespace Job

theorem avoids_ofOutcome {outcome : Outcome α} :
    (ofOutcome outcome).Avoids kind ↔ Outcome.Avoids kind outcome := Iff.rfl

theorem avoids_ofCall (call : StoreCall) : (ofCall call).Avoids kind :=
  fun _ _ hanswer => hanswer

theorem gives_any (job : Job α) : job.Gives fun _ => True :=
  ensures_of_forall (fun _ _ _ _ => True.intro) job ()

theorem Gives.run {job : Job α} {good : α → Prop} (h : job.Gives good) {store : Store σ}
    {state after : σ} {value : α} (hrun : job.run store state = (.ok value, after)) :
    good value := by
  induction job generalizing state with
  | done outcome => exact h value (congrArg Prod.fst hrun)
  | ask call next ih => exact ih _ (h _ () True.intro) hrun

/-- A job that goes on with a result of which more is known. -/
theorem avoids_bind_of {job : Job α} {next : α → Job β} {good : α → Prop}
    (h : job.Avoids kind) (hgood : job.Gives good)
    (hnext : ∀ value, good value → (next value).Avoids kind) : (job.bind next).Avoids kind := by
  have hgiven : job.Ensures (avoiding kind)
      (fun outcome _ => ∀ value, outcome = .ok value → good value) () :=
    ensures_restrict (fun _ _ _ _ _ => True.intro) hgood
  refine ensures_bind (ensures_mono ?_ (ensures_and h hgiven))
  intro outcome _ hboth
  cases outcome with
  | error error => exact Outcome.avoids_error.mpr (Outcome.avoids_error.mp hboth.1)
  | ok value => exact hnext value (hboth.2 value rfl)

theorem avoids_bind {job : Job α} {next : α → Job β} (h : job.Avoids kind)
    (hnext : ∀ value, (next value).Avoids kind) : (job.bind next).Avoids kind :=
  avoids_bind_of h (gives_any job) fun value _ => hnext value

/-- A job that goes on with the result of a step that may fail. -/
theorem avoids_bind_ofOutcome {outcome : Outcome α} {next : α → Job β}
    (h : Outcome.Avoids kind outcome) (hnext : ∀ value, (next value).Avoids kind) :
    ((ofOutcome outcome).bind next).Avoids kind :=
  avoids_bind (avoids_ofOutcome.mpr h) hnext

end Job

/-! ### The work on a chunk -/

section Chunk

variable {codec : Codec} {limit : UInt64} {storeEmpty : Bool} {chunk : Chunk} {plan : ChunkPlan}

theorem Chunk.checkedLength_avoids (hstop : ¬ kind .overflow)
    (hlarge : ∀ elements limit, ¬ kind (.chunkTooLarge elements limit))
    (hchunk : ∀ key fault, ¬ kind (.invalidChunk key fault)) (chunk : Chunk) (limit : UInt64) :
    Outcome.Avoids kind (chunk.checkedLength limit) := by
  intro error h
  rcases checkedLength_eq_error_iff.mp h with ⟨-, rfl⟩ | ⟨-, -, rfl⟩ | ⟨-, -, -, rfl⟩
  · exact hchunk _ _
  · exact hstop
  · exact hlarge _ _

theorem Chunk.checkSize_avoids (hstop : ¬ kind .overflow)
    (hchunk : ∀ key fault, ¬ kind (.invalidChunk key fault))
    (chunk : Chunk) (count : Nat) (fault : Nat → UInt64 → ChunkFault) (decoded : Bytes) :
    Outcome.Avoids kind (chunk.checkSize count fault decoded) := by
  intro error h
  simp only [checkSize, Outcome.bind_eq_error] at h
  rcases h with hsize | ⟨expected, -, h⟩
  · obtain ⟨-, rfl⟩ := Outcome.ofProduct_eq_error.mp hsize
    exact hstop
  · split at h
    · cases h
    · obtain rfl := Except.error.inj h
      exact hchunk _ _

variable (hcodec : codec.Avoids kind) (hstop : ¬ kind .overflow)
  (hlarge : ∀ elements limit, ¬ kind (.chunkTooLarge elements limit))
  (hchunk : ∀ key fault, ¬ kind (.invalidChunk key fault))

include hcodec

theorem writeChunk_avoids (storeEmpty : Bool) (chunk : Chunk) (bytes : Bytes) :
    (writeChunk codec storeEmpty chunk bytes).Avoids kind := by
  unfold writeChunk
  split
  · exact Job.avoids_ofCall _
  · refine Job.avoids_bind_ofOutcome (hcodec.encode chunk bytes) ?_
    intro encoded
    exact Job.avoids_ofCall _

include hstop hlarge hchunk

theorem readChunk_avoids (limit : UInt64) (chunk : Chunk) :
    (readChunk codec limit chunk).Avoids kind := by
  refine Job.avoids_bind_ofOutcome (chunk.checkedLength_avoids hstop hlarge hchunk limit) ?_
  intro count
  refine Job.avoids_bind (Job.avoids_ofCall _) ?_
  rintro (_ | encoded)
  · exact Outcome.avoids_ok _
  · refine Job.avoids_bind_ofOutcome (hcodec.decode chunk encoded) ?_
    intro decoded
    exact chunk.checkSize_avoids hstop hchunk _ _ _

theorem ChunkPlan.read_avoids {whole : Bytes → Prop}
    (hwhole : (readChunk codec limit plan.chunk).Gives whole)
    (hextract : ∀ bytes, whole bytes → Outcome.Avoids kind
      (plan.chunkBox.extract plan.chunk.shape plan.chunk.elementSize bytes)) :
    (plan.read codec limit).Avoids kind := by
  have hread := readChunk_avoids hcodec hstop hlarge hchunk limit plan.chunk
  unfold read
  split
  · exact Outcome.avoids_ok _
  split
  · exact hread
  refine Job.avoids_bind_ofOutcome (plan.chunk.checkedLength_avoids hstop hlarge hchunk limit) ?_
  intro count
  refine Job.avoids_bind (hcodec.partialDecode plan.chunk plan.chunkBox) ?_
  rintro (_ | decoded)
  · exact Job.avoids_bind_of hread hwhole hextract
  · exact plan.chunk.checkSize_avoids hstop hchunk _ _ _

theorem ChunkPlan.write_avoids {whole : Bytes → Prop}
    (hwhole : (readChunk codec limit plan.chunk).Gives whole) (storeEmpty : Bool) (data : Bytes)
    (hupdate : ∀ bytes, whole bytes → Outcome.Avoids kind
      (plan.chunkBox.update plan.chunk.shape plan.chunk.elementSize data bytes).outcome) :
    (plan.write codec limit storeEmpty data).Avoids kind := by
  unfold write
  split
  · exact Outcome.avoids_ok _
  split
  · exact writeChunk_avoids hcodec storeEmpty plan.chunk data
  refine Job.avoids_bind_of (readChunk_avoids hcodec hstop hlarge hchunk limit plan.chunk) hwhole ?_
  intro existing hexisting
  refine Job.avoids_bind_ofOutcome (hupdate existing hexisting) ?_
  intro _
  exact writeChunk_avoids hcodec storeEmpty plan.chunk _

end Chunk

/-! ### Regions -/

section Region

variable {box : Box} {shape : Shape} {width : Nat}

theorem Box.extract_avoids (hregion : ∀ fault, ¬ kind (.region fault)) (bytes : Bytes) :
    Outcome.Avoids kind (box.extract shape width bytes) := by
  unfold extract
  split
  · exact Outcome.avoids_ok _
  split
  · exact Outcome.avoids_error.mpr (hregion _)
  split
  · exact Outcome.avoids_ok _
  · exact Outcome.avoids_error.mpr (hregion _)

theorem Box.writePieces_avoids (hregion : ∀ fault, ¬ kind (.region fault))
    (writes : List (Bytes × Nat)) (buffer : Bytes) :
    Outcome.Avoids kind (writePieces width writes buffer).outcome := by
  induction writes generalizing buffer with
  | nil => exact Outcome.avoids_ok _
  | cons write writes ih =>
    simp only [writePieces]
    split
    · exact ih _
    · exact Outcome.avoids_error.mpr (hregion _)

theorem Box.update_avoids (hregion : ∀ fault, ¬ kind (.region fault))
    (hbuffer : ∀ shape expected got, ¬ kind (.bufferSize shape expected got))
    (data buffer : Bytes) : Outcome.Avoids kind (box.update shape width data buffer).outcome := by
  simp only [update]
  split
  · exact Outcome.avoids_error.mpr (hbuffer _ _ _)
  split
  · exact Outcome.avoids_ok _
  split
  · exact Outcome.avoids_error.mpr (hregion _)
  · exact writePieces_avoids hregion _ _

theorem scatterAll_avoids (hregion : ∀ fault, ¬ kind (.region fault))
    (hbuffer : ∀ shape expected got, ¬ kind (.bufferSize shape expected got))
    (regions : List (ChunkPlan × Bytes)) (buffer : Bytes) :
    Outcome.Avoids kind (scatterAll shape regions buffer).outcome := by
  induction regions generalizing buffer with
  | nil => exact Outcome.avoids_ok _
  | cons region regions ih =>
    have hscatter : Outcome.Avoids kind (region.1.scatter shape region.2 buffer).outcome :=
      Box.update_avoids hregion hbuffer _ _
    rw [scatterAll]
    split
    · exact ih _
    next hfailed => exact hscatter

end Region

/-! ### Batches of jobs -/

/-- The division in which the answers avoid a kind of error. -/
def Division.avoiding {store : Store σ} (hstore : store.Avoids kind) : Division store Unit where
  share _ _ := ()
  may _ _ := True
  answers := ChunkedArray.avoiding kind
  own _ state := hstore _ state
  others _ _ _ := rfl

/-- **A batch of jobs avoids a kind of error** that its jobs and the store avoid. -/
theorem dispatch_avoids {rules : Rules} {store : Store σ} (hstore : store.Avoids kind)
    (schedule : Schedule) {jobs : List (Job α)} (hjobs : ∀ job ∈ jobs, job.Avoids kind)
    (state : σ) : Outcome.Avoids kind (dispatch rules store schedule jobs state).1 := by
  have hadmits : ∀ (place : Nat) job, jobs[place]? = some job →
      (Division.avoiding hstore).Admits (fun _ outcome _ => Outcome.Avoids kind outcome) state
        place job := by
    intro place job hjob
    exact ⟨Job.callsOnly_of_forall (fun _ => True.intro) job,
      hjobs job (List.mem_of_getElem? hjob)⟩
  intro error herror
  obtain ⟨place, -, havoids⟩ := Division.dispatch_error hadmits (Prod.ext herror rfl)
  exact Outcome.avoids_error.mp havoids

section Batch

variable {pipeline : Pipeline σ} {rules : Rules} {schedule : Schedule}
  (hstore : pipeline.store.Avoids kind)

include hstore

theorem readRegions_avoids {plans : List ChunkPlan}
    (hplans : ∀ plan ∈ plans, (plan.read pipeline.codec pipeline.limit).Avoids kind) (state : σ) :
    Outcome.Avoids kind (pipeline.readRegions rules schedule plans state).1 := by
  refine dispatch_avoids hstore schedule ?_ state
  intro job hjob
  obtain ⟨plan, hplan, rfl⟩ := List.mem_map.mp hjob
  exact hplans plan hplan

theorem writeRegions_avoids {regions : List (ChunkPlan × Bytes)}
    (hregions : ∀ entry ∈ regions, (pipeline.writeJob entry).Avoids kind) (state : σ) :
    Outcome.Avoids kind (pipeline.writeRegions rules schedule regions state).1 := by
  have hdispatch : Outcome.Avoids kind
      (dispatch rules pipeline.store schedule (pipeline.writeJobs regions) state).1 := by
    refine dispatch_avoids hstore schedule ?_ state
    intro job hjob
    obtain ⟨entry, hentry, rfl⟩ := List.mem_map.mp hjob
    exact hregions entry hentry
  rw [writeRegions_eq]
  intro error herror
  cases hended : (dispatch rules pipeline.store schedule (pipeline.writeJobs regions) state).1 with
  | error failure =>
    rw [hended] at herror
    exact Except.error.inj herror ▸ hdispatch failure hended
  | ok results =>
    rw [hended] at herror
    cases herror

end Batch

/-! ### Tables and the tag -/

theorem Table.avoids (hstore : ∀ key fault, ¬ kind (.store key fault))
    (refuses : Verb → String → Bool) : (Table.store refuses).Avoids kind := by
  intro call table
  cases call
  case getPartial key ranges =>
    simp only [Table.store, Table.answer]
    split
    · exact Outcome.avoids_error.mpr (hstore _ _)
    split
    · exact Outcome.avoids_ok _
    next value _ =>
      rw [Table.parts]
      cases ByteRange.extract value ranges with
      | error fault => exact Outcome.avoids_error.mpr (hstore _ _)
      | ok parts => exact Outcome.avoids_ok _
  all_goals
    simp only [Table.store, Table.answer]
    split
    · exact Outcome.avoids_error.mpr (hstore _ _)
    · exact Outcome.avoids_ok _

theorem Tagged.avoids (hcodec : ∀ key fault, ¬ kind (.codec key fault)) (part : Option Bytes) :
    (Tagged.codec part).Avoids kind where
  encode chunk decoded := by
    simp only [Tagged.codec, Tagged.encode]
    split
    · exact Outcome.avoids_error.mpr (hcodec _ _)
    · exact Outcome.avoids_ok _
  decode chunk encoded := by
    simp only [Tagged.codec, Tagged.decode]
    split
    · split
      · exact Outcome.avoids_ok _
      · exact Outcome.avoids_error.mpr (hcodec _ _)
    · exact Outcome.avoids_error.mpr (hcodec _ _)
  partialDecode _ _ := Outcome.avoids_ok part

end ChunkedArray
