import ChunkedArray.Codec.Tagged
import ChunkedArray.Pipeline.Basic
import ChunkedArray.Proofs.Pipeline.Access
import ChunkedArray.Proofs.Pipeline.Division
import ChunkedArray.Proofs.Pipeline.Sequence
import ChunkedArray.Proofs.Store.Cell

/-!
# ChunkedArray.Proofs.Pipeline.Keys

Which key each job of a batch works on.

Jobs that work on keys of their own (`Job.WorkOn`), or that only read (`Job.ReadOn`),
suit the division by keys on any store that keeps its keys apart. The jobs of a batch
are of this kind: each works on the key of its entry.
-/

namespace ChunkedArray

variable {α σ : Type} {store : Store σ} {value : σ → String → Cell}

/-! ### Jobs on keys -/

namespace Job

/-- The job at each place makes only the calls that it may make for the key at the
place. -/
def CallsAt (may : String → StoreCall → Prop) (keys : List String) (jobs : List (Job α)) : Prop :=
  ∀ (place : Nat) job, jobs[place]? = some job →
    ∃ key, keys[place]? = some key ∧ job.CallsOnly (may key)

/-- The job at each place works on the key at the place and on no other one. -/
abbrev WorkOn (keys : List String) (jobs : List (Job α)) : Prop :=
  CallsAt (fun key call => call.key = key) keys jobs

/-- The job at each place reads the key at the place and does nothing else. -/
abbrev ReadOn (keys : List String) (jobs : List (Job α)) : Prop :=
  CallsAt (fun key call => call.key = key ∧ call.isRead) keys jobs

/-- The jobs do not get into each other's way: each works on a key of its own, or all of
them only read. -/
def StayApart (keys : List String) (jobs : List (Job α)) : Prop :=
  WorkOn keys jobs ∧ keys.Nodup ∨ ReadOn keys jobs

variable {may : String → StoreCall → Prop} {keys : List String} {jobs : List (Job α)}

theorem CallsAt.append (h : CallsAt may keys jobs) (more : List String) :
    CallsAt may (keys ++ more) jobs := by
  intro place job hjob
  obtain ⟨key, hkey, hcalls⟩ := h place job hjob
  have hlt := (List.getElem?_eq_some_iff.mp hkey).1
  exact ⟨key, by rwa [List.getElem?_append_left hlt], hcalls⟩

theorem callsAt_map {ι : Type} {items : List ι} {key : ι → String} {job : ι → Job α}
    (h : ∀ item, (job item).CallsOnly (may (key item))) :
    CallsAt may (items.map key) (items.map job) := by
  intro place job' hjob
  rw [List.getElem?_map] at hjob
  obtain ⟨item, hitem, rfl⟩ := Option.map_eq_some_iff.mp hjob
  exact ⟨key item, by rw [List.getElem?_map, hitem, Option.map_some], h item⟩

theorem StayApart.append (h : StayApart keys jobs) {key : String} (hkey : key ∉ keys) :
    StayApart (keys ++ [key]) jobs := by
  rcases h with ⟨hwork, hkeys⟩ | hreads
  · refine Or.inl ⟨CallsAt.append hwork [key], List.nodup_append.mpr ⟨hkeys, by simp, ?_⟩⟩
    rintro own hown other hother rfl
    exact hkey (List.mem_singleton.mp hother ▸ hown)
  · exact Or.inr (CallsAt.append hreads [key])

theorem StayApart.length_le (h : StayApart keys jobs) : jobs.length ≤ keys.length := by
  have hkeys : ∀ (place : Nat) job, jobs[place]? = some job → ∃ key, keys[place]? = some key := by
    intro place job hjob
    rcases h with ⟨hwork, -⟩ | hreads
    · obtain ⟨key, hkey, -⟩ := hwork place job hjob
      exact ⟨key, hkey⟩
    · obtain ⟨key, hkey, -⟩ := hreads place job hjob
      exact ⟨key, hkey⟩
  by_contra hlt
  obtain ⟨key, hkey⟩ := hkeys keys.length _ (List.getElem?_eq_getElem (by omega))
  simp at hkey

/-- Any key is one that the jobs work on, or one that can be put behind theirs. -/
theorem StayApart.exists_place (h : StayApart keys jobs) (key : String) :
    ∃ (keys' : List String) (place : Nat), StayApart keys' jobs ∧ keys'[place]? = some key := by
  by_cases hmem : key ∈ keys
  · obtain ⟨place, hplace⟩ := List.mem_iff_getElem?.mp hmem
    exact ⟨keys, place, h, hplace⟩
  · exact ⟨keys ++ [key], keys.length, h.append hmem, by simp⟩

end Job

/-- Jobs that do not get into each other's way suit the division by their keys. -/
theorem Division.suits_of_stayApart {answers : Answering Cell}
    (hkeeps : store.Keeps value answers) (hread : answers.KeepsOnRead) {keys : List String}
    {jobs : List (Job α)} (hjobs : Job.StayApart keys jobs) :
    (byKey hkeeps hread keys).Suits jobs := by
  intro place job hjob
  rcases hjobs with ⟨hwork, hkeys⟩ | hreads
  · obtain ⟨key, hkey, hcalls⟩ := hwork place job hjob
    refine Job.callsOnly_mono ?_ hcalls
    rintro call rfl
    exact ⟨hkey, Or.inr fun other hne hother => hne (place_unique hkeys hkey hother)⟩
  · obtain ⟨key, hkey, hcalls⟩ := hreads place job hjob
    refine Job.callsOnly_mono ?_ hcalls
    rintro call ⟨rfl, hcall⟩
    exact ⟨hkey, Or.inl hcall⟩

/-- A key that the jobs do not work on keeps its value, whether they succeed or fail. -/
theorem dispatch_elsewhere {rules : Rules} {schedule : Schedule} {answers : Answering Cell}
    {state : σ} (hkeeps : store.Keeps value answers) (hread : answers.KeepsOnRead)
    {keys : List String} {jobs : List (Job α)} (hjobs : Job.StayApart keys jobs) {key : String}
    (hkey : key ∉ keys) :
    value (dispatch rules store schedule jobs state).2 key = value state key := by
  -- the key gets a place of its own, behind those of the jobs
  have hplace : (keys ++ [key])[keys.length]? = some key := by simp
  have hadmits : ∀ (place : Nat) job, jobs[place]? = some job →
      (Division.byKey hkeeps hread (keys ++ [key])).Admits (fun _ _ _ => True) state place job := by
    intro place job hjob
    exact ⟨Division.suits_of_stayApart hkeeps hread (hjobs.append hkey) place job hjob,
      Job.ensures_of_forall (fun _ _ => True.intro) job _⟩
  have hsame : Division.shareAt value (keys ++ [key]) keys.length
      (dispatch rules store schedule jobs state).2 =
        Division.shareAt value (keys ++ [key]) keys.length state :=
    Division.work_beyond hadmits hjobs.length_le
  simpa only [Division.shareAt_eq hplace] using hsame

/-! ### The jobs of a batch -/

/-- The pipeline over a table that refuses some calls. -/
abbrev Table.pipeline (refuses : Verb → String → Bool) (codec : Codec) (config : Config) :
    Pipeline Table :=
  ⟨Table.store refuses, codec, config⟩

/-- The jobs that read the regions of some plans. -/
def Pipeline.readJobs (pipeline : Pipeline σ) (plans : List ChunkPlan) : List (Job Bytes) :=
  plans.map (ChunkPlan.read pipeline.codec pipeline.limit)

/-- The jobs that write the regions of some plans. -/
def Pipeline.writeJobs (pipeline : Pipeline σ) (regions : List (ChunkPlan × Bytes)) :
    List (Job Unit) :=
  regions.map pipeline.writeJob

theorem readJobs_readOn (pipeline : Pipeline σ) (hcodec : pipeline.codec.ReadsOwn)
    (plans : List ChunkPlan) :
    Job.ReadOn (plans.map fun plan => plan.chunk.key) (pipeline.readJobs plans) :=
  Job.callsAt_map fun plan => plan.read_readsOnly hcodec pipeline.limit

theorem writeJobs_workOn (pipeline : Pipeline σ) (regions : List (ChunkPlan × Bytes)) :
    Job.WorkOn (regions.map fun entry => entry.1.chunk.key) (pipeline.writeJobs regions) :=
  Job.callsAt_map fun entry => entry.1.write_callsOnly pipeline.codec pipeline.limit
    pipeline.config.storeEmptyChunks entry.2

theorem writeJobs_stayApart {pipeline : Pipeline σ} {regions : List (ChunkPlan × Bytes)}
    (hkeys : (regions.map fun entry => entry.1.chunk.key).Nodup) :
    Job.StayApart (regions.map fun entry => entry.1.chunk.key) (pipeline.writeJobs regions) :=
  Or.inl ⟨writeJobs_workOn pipeline regions, hkeys⟩

theorem writeRegions_eq (pipeline : Pipeline σ) (rules : Rules) (schedule : Schedule)
    (regions : List (ChunkPlan × Bytes)) (state : σ) :
    pipeline.writeRegions rules schedule regions state =
      ((dispatch rules pipeline.store schedule (pipeline.writeJobs regions) state).1.map
          fun _ => (),
        (dispatch rules pipeline.store schedule (pipeline.writeJobs regions) state).2) := rfl

theorem storeChunks_unprepared {pipeline : Pipeline σ} {batch : List BatchEntry} {shape : Shape}
    {buffer : Bytes} {error : AccessError}
    (h : pipeline.prepare batch shape buffer = .error error) (rules : Rules)
    (schedule : Schedule) (state : σ) :
    pipeline.storeChunks rules schedule batch shape buffer state = (.error error, state) := by
  simp only [Pipeline.storeChunks, h]

theorem storeChunks_prepared {pipeline : Pipeline σ} {batch : List BatchEntry} {shape : Shape}
    {buffer : Bytes} {regions : List (ChunkPlan × Bytes)}
    (h : pipeline.prepare batch shape buffer = .ok regions) (rules : Rules)
    (schedule : Schedule) (state : σ) :
    pipeline.storeChunks rules schedule batch shape buffer state =
      pipeline.writeRegions rules schedule regions state := by
  simp only [Pipeline.storeChunks, h]

/-- A batch of writes that succeeds has prepared all of its entries and done all of its
jobs. -/
theorem storeChunks_eq_ok {pipeline : Pipeline σ} {rules : Rules} {schedule : Schedule}
    {batch : List BatchEntry} {shape : Shape} {buffer : Bytes} {state state' : σ}
    (h : pipeline.storeChunks rules schedule batch shape buffer state = (.ok (), state')) :
    ∃ regions results, pipeline.prepare batch shape buffer = .ok regions ∧
      dispatch rules pipeline.store schedule (pipeline.writeJobs regions) state =
        (.ok results, state') := by
  cases hregions : pipeline.prepare batch shape buffer with
  | error error =>
    rw [storeChunks_unprepared hregions] at h
    cases (Prod.mk.inj h).1
  | ok regions =>
    rw [storeChunks_prepared hregions, writeRegions_eq] at h
    obtain ⟨hmap, rfl⟩ := Prod.mk.inj h
    obtain ⟨results, hok, -⟩ := Outcome.map_eq_ok.mp hmap
    exact ⟨regions, results, rfl, Prod.ext hok rfl⟩

/-- What planning and gathering have found of each entry. -/
theorem prepare_eq_ok {pipeline : Pipeline σ} {batch : List BatchEntry} {shape : Shape}
    {buffer : Bytes} {regions : List (ChunkPlan × Bytes)}
    (h : pipeline.prepare batch shape buffer = .ok regions) :
    List.Forall₂ (fun entry region => (entry.PlannedAs shape region.1 ∧
      region.1.Sound buffer.length shape) ∧ region.1.gather shape buffer = .ok region.2)
      batch regions := by
  simp only [Pipeline.prepare, Outcome.bind_eq_ok, Outcome.pure_eq_ok] at h
  obtain ⟨plans, hplans, parts, hparts, rfl⟩ := h
  exact forall₂_zip_right (planBatch_eq_ok hplans) (Outcome.mapM_eq_ok.mp hparts)

/-- Each region that is prepared belongs to a plan, and was cut from the buffer. -/
theorem mem_of_prepare {pipeline : Pipeline σ} {batch : List BatchEntry} {shape : Shape}
    {buffer : Bytes} {plans : List ChunkPlan} {regions : List (ChunkPlan × Bytes)}
    (hplans : pipeline.plan batch shape buffer = .ok plans)
    (h : pipeline.prepare batch shape buffer = .ok regions) {entry : ChunkPlan × Bytes}
    (hentry : entry ∈ regions) :
    entry.1 ∈ plans ∧ entry.1.gather shape buffer = .ok entry.2 := by
  simp only [Pipeline.prepare, hplans, Outcome.bind_eq_ok, Outcome.pure_eq_ok] at h
  obtain ⟨_, ⟨⟩, parts, hparts, rfl⟩ := h
  refine ⟨(List.of_mem_zip hentry).1, ?_⟩
  exact (List.forall₂_iff_zip.mp (Outcome.mapM_eq_ok.mp hparts)).2 hentry

theorem keys_of_prepare {pipeline : Pipeline σ} {batch : List BatchEntry} {shape : Shape}
    {buffer : Bytes} {regions : List (ChunkPlan × Bytes)}
    (h : pipeline.prepare batch shape buffer = .ok regions) :
    (regions.map fun entry => entry.1.chunk.key) = batch.map fun entry => entry.chunk.key :=
  map_eq_of_forall₂ (prepare_eq_ok h) fun _ _ hentry =>
    congrArg Chunk.key hentry.1.1.chunk_eq

/-! ### A batch of two entries

A small batch to run the statements about batches on. -/

namespace Pair

/-- One element of a chunk and all of another one, from a buffer of three elements. -/
def batch : List BatchEntry :=
  [⟨⟨"a", [2], "uint8", [9]⟩, [.unit 0 1], [.unit 0 1]⟩,
    ⟨⟨"b", [2], "uint8", [9]⟩, [.unit 0 2], [.unit 1 3]⟩]

/-- A pipeline over a table that refuses some calls. -/
def pipeline (refuses : Verb → String → Bool) : Pipeline Table :=
  Table.pipeline refuses (Tagged.codec none) {}

/-- The calls of the two entries in turns. -/
def alternating : Schedule :=
  [.start 1, .start 0, .proceed 0, .proceed 1, .proceed 1, .proceed 0, .proceed 0]

theorem keys_nodup : (batch.map fun entry => entry.chunk.key).Nodup := by decide

end Pair

end ChunkedArray
