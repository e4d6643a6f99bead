import ChunkedArray.Proofs.Pipeline.Keys
import ChunkedArray.Proofs.Pipeline.Retrieval
import ChunkedArray.Proofs.Pipeline.Sequence

/-!
# ChunkedArray.Proofs.Pipeline.Order

The order in which the jobs of a batch make their calls does not matter.

A batch of jobs that do not get into each other's way (`Job.StayApart`) comes to what
running the jobs one after another comes to, whatever the schedule is
(`dispatch_agrees`). Two dispatchers with any schedules therefore move the same bytes.
-/

namespace ChunkedArray

variable {α σ : Type} {store : Store σ} {value : σ → String → Cell}

/-! ### A batch and the sequence of its jobs -/

section Keys

variable {rules : Rules} {schedule : Schedule} {cell : Store Cell} {keys : List String}
  {jobs : List (Job α)} {state : σ}

/-- A batch that succeeds leaves under every key what the sequence leaves. -/
theorem dispatch_value (hkeeps : store.Keeps value cell.answering)
    (hread : cell.answering.KeepsOnRead) (hjobs : Job.StayApart keys jobs) {values : List α}
    {state' : σ} (h : dispatch rules store schedule jobs state = (.ok values, state'))
    (key : String) : value state' key = value (Job.runAll store jobs state).2 key := by
  obtain ⟨keys', place, hjobs', hplace⟩ := hjobs.exists_place key
  have hsuits := Division.suits_of_stayApart hkeeps hread hjobs'
  have hfollows : (Division.byKey hkeeps hread keys').Follows cell := rfl
  have hshare := Division.dispatch_share hfollows hsuits h place
  simpa only [Division.byKey, Division.shareAt_eq hplace] using hshare

/-- In a batch that succeeds, each job does under its key what it does there alone. -/
theorem dispatch_run (hkeeps : store.Keeps value cell.answering)
    (hread : cell.answering.KeepsOnRead) (hjobs : Job.StayApart keys jobs) {values : List α}
    {state' : σ} (h : dispatch rules store schedule jobs state = (.ok values, state')) {place : Nat}
    {key : String} {job : Job α} (hkey : keys[place]? = some key) (hjob : jobs[place]? = some job) :
    ∃ result, values[place]? = some result ∧
      job.run cell (value state key) = (.ok result, value state' key) := by
  have hsuits := Division.suits_of_stayApart hkeeps hread hjobs
  have hfollows : (Division.byKey hkeeps hread keys).Follows cell := rfl
  obtain ⟨hlength, halone⟩ := Division.dispatch_alone hfollows hsuits h
  have hlt : place < values.length := by
    rw [hlength]
    exact (List.getElem?_eq_some_iff.mp hjob).1
  refine ⟨values[place], List.getElem?_eq_getElem hlt, ?_⟩
  have hrun := halone place hlt job hjob
  simpa only [Division.byKey, Division.shareAt_eq hkey] using hrun

/-- A batch of reads leaves all values as they are, also if it fails. -/
theorem dispatch_reads_value {answers : Answering Cell} (hkeeps : store.Keeps value answers)
    (hread : answers.KeepsOnRead) (hjobs : Job.ReadOn keys jobs) (key : String) :
    value (dispatch rules store schedule jobs state).2 key = value state key := by
  obtain ⟨keys', place, hreads, hplace⟩ : ∃ (keys' : List String) (place : Nat),
      Job.ReadOn keys' jobs ∧ keys'[place]? = some key := by
    exact ⟨keys ++ [key], (keys ++ [key]).length - 1, hjobs.append [key], by simp⟩
  have hadmits : ∀ (place : Nat) job, jobs[place]? = some job →
      (Division.byKey hkeeps hread keys').Admits
        (fun place _ after => after = Division.shareAt value keys' place state)
        state place job := by
    intro place job hjob
    obtain ⟨own, -, hown⟩ := hreads place job hjob
    exact ⟨Division.suits_of_stayApart hkeeps hread (Or.inr hreads) place job hjob,
      Job.ensures_of_readsOnly hread hown _⟩
  have hshare : Division.shareAt value keys' place (dispatch rules store schedule jobs state).2 =
      Division.shareAt value keys' place state := by
    by_cases harrived : ∃ outcome,
        ⟨place, outcome⟩ ∈ (Crew.work rules store schedule jobs state).1.arrivals
    · -- what a job has done to its share is to read it
      obtain ⟨outcome, hmem⟩ := harrived
      exact Division.work_arrived hadmits hmem
    · exact Division.work_absent hadmits fun outcome hmem => harrived ⟨outcome, hmem⟩
  simpa only [Division.shareAt_eq hplace] using hshare

/-- The place of the only failure among some outcomes. -/
def OnlyFailure (outcomes : List (Outcome α)) (place : Nat) (error : AccessError) : Prop :=
  outcomes[place]? = some (.error error) ∧
    ∀ (other : Nat) failure, outcomes[other]? = some (.error failure) → other = place

/-- A batch comes to what the sequence of its jobs comes to: if no job fails, the batch
has their results and leaves the same values; if one job fails, the batch has its
failure. -/
structure AgreesWith {β : Type} (value : σ → String → Cell) (collected : List α → β)
    (batch : Outcome β × σ) (sequence : List (Outcome α) × σ) : Prop where
  succeeds : ∀ values, sequence.1 = values.map .ok →
    batch.1 = .ok (collected values) ∧ ∀ key, value batch.2 key = value sequence.2 key
  fails : ∀ place error, OnlyFailure sequence.1 place error → batch.1 = .error error

theorem dispatch_agrees (hkeeps : store.Keeps value cell.answering)
    (hread : cell.answering.KeepsOnRead) (hjobs : Job.StayApart keys jobs) :
    AgreesWith value id (dispatch rules store schedule jobs state)
      (Job.runAll store jobs state) where
  succeeds values hvalues := by
    have hfollows : (Division.byKey hkeeps hread keys).Follows cell := rfl
    have hsuits := Division.suits_of_stayApart hkeeps hread hjobs
    have hok : (dispatch rules store schedule jobs state).1 = .ok values :=
      (Division.dispatch_ok_iff hfollows hsuits).mpr hvalues
    exact ⟨hok, dispatch_value hkeeps hread hjobs (Prod.ext hok rfl)⟩
  fails place error hfailure := by
    have hfollows : (Division.byKey hkeeps hread keys).Follows cell := rfl
    have hsuits := Division.suits_of_stayApart hkeeps hread hjobs
    cases hbatch : (dispatch rules store schedule jobs state).1 with
    | ok values =>
      have hsequence := (Division.dispatch_ok_iff hfollows hsuits).mp hbatch
      rw [OnlyFailure, hsequence, List.getElem?_map] at hfailure
      obtain ⟨result, -, hresult⟩ := Option.map_eq_some_iff.mp hfailure.1
      cases hresult
    | error failure =>
      obtain ⟨other, hother⟩ := Division.dispatch_error_mem hfollows hsuits hbatch
      rw [hfailure.2 other failure hother, hfailure.1] at hother
      rw [Except.error.inj (Option.some.inj hother)]

theorem AgreesWith.map {β δ : Type} {collected : List α → β} {batch : Outcome β × σ}
    {sequence : List (Outcome α) × σ} (h : AgreesWith value collected batch sequence)
    (f : β → δ) : AgreesWith value (f ∘ collected) (batch.1.map f, batch.2) sequence where
  succeeds values hvalues := by
    obtain ⟨hok, hstate⟩ := h.succeeds values hvalues
    exact ⟨by rw [hok]; rfl, hstate⟩
  fails place error hfailure := by
    rw [h.fails place error hfailure]
    rfl

/-- Two batches of the same jobs succeed together. -/
theorem dispatch_ok_congr {rules' : Rules} {schedule' : Schedule}
    (hkeeps : store.Keeps value cell.answering) (hread : cell.answering.KeepsOnRead)
    (hjobs : Job.StayApart keys jobs) {values : List α}
    (h : (dispatch rules store schedule jobs state).1 = .ok values) :
    (dispatch rules' store schedule' jobs state).1 = .ok values := by
  have hfollows : (Division.byKey hkeeps hread keys).Follows cell := rfl
  have hsuits := Division.suits_of_stayApart hkeeps hread hjobs
  exact (Division.dispatch_ok_iff hfollows hsuits).mpr
    ((Division.dispatch_ok_iff hfollows hsuits).mp h)

/-- In a batch of reads that succeeds, each item is read as it is alone. -/
theorem dispatch_reads {ι : Type} {items : List ι} {key : ι → String} {job : ι → Job α}
    (hkeeps : store.Keeps value cell.answering) (hread : cell.answering.KeepsOnRead)
    (hjobs : ∀ item, (job item).ReadsOnly (key item)) {values : List α} {state' : σ}
    (h : dispatch rules store schedule (items.map job) state = (.ok values, state')) :
    List.Forall₂ (fun item result => ((job item).run cell (value state (key item))).1 = .ok result)
        items values ∧ ∀ key, value state' key = value state key := by
  have hreads : Job.ReadOn (items.map key) (items.map job) := Job.callsAt_map hjobs
  have hsuits := Division.suits_of_stayApart hkeeps hread (Or.inr hreads)
  have hfollows : (Division.byKey hkeeps hread (items.map key)).Follows cell := rfl
  have hlength : values.length = items.length := by
    rw [(Division.dispatch_alone hfollows hsuits h).1, List.length_map]
  constructor
  · refine List.forall₂_iff_get.mpr ⟨hlength.symm, ?_⟩
    intro place hitem hvalue
    have hkey : (items.map key)[place]? = some (key items[place]) := by
      rw [List.getElem?_map, List.getElem?_eq_getElem hitem, Option.map_some]
    have hjob : (items.map job)[place]? = some (job items[place]) := by
      rw [List.getElem?_map, List.getElem?_eq_getElem hitem, Option.map_some]
    obtain ⟨result, hresult, hrun⟩ := dispatch_run hkeeps hread (Or.inr hreads) h hkey hjob
    rw [List.getElem?_eq_getElem hvalue] at hresult
    show ((job items[place]).run cell (value state (key items[place]))).1 = .ok values[place]
    rw [hrun, Option.some.inj hresult]
  · intro other
    have hsame : value (dispatch rules store schedule (items.map job) state).2 other =
        value state other := dispatch_reads_value hkeeps hread hreads other
    rwa [h] at hsame

end Keys

/-! ### Batches of a pipeline -/

section Pipeline

variable {pipeline : Pipeline σ} {cell : Store Cell} {rules rules' : Rules}
  {schedule schedule' : Schedule} {plans : List ChunkPlan} {regions : List (ChunkPlan × Bytes)}
  {batch : List BatchEntry} {shape : Shape} {buffer : Bytes} {state : σ}

theorem readRegions_agrees (hkeeps : pipeline.store.Keeps value cell.answering)
    (hread : cell.answering.KeepsOnRead) (hcodec : pipeline.codec.ReadsOwn) :
    AgreesWith value id (pipeline.readRegions rules schedule plans state)
      (Job.runAll pipeline.store (pipeline.readJobs plans) state) :=
  dispatch_agrees hkeeps hread (Or.inr (readJobs_readOn pipeline hcodec plans))

theorem writeRegions_agrees (hkeeps : pipeline.store.Keeps value cell.answering)
    (hread : cell.answering.KeepsOnRead)
    (hkeys : (regions.map fun entry => entry.1.chunk.key).Nodup) :
    AgreesWith value (fun _ => ()) (pipeline.writeRegions rules schedule regions state)
      (Job.runAll pipeline.store (pipeline.writeJobs regions) state) := by
  rw [writeRegions_eq]
  exact (dispatch_agrees hkeeps hread (writeJobs_stayApart hkeys)).map fun _ => ()

/-- Two ways of reading a batch do the same: they succeed together, and leave the same
buffer and the same values. -/
def SameRetrieval (value : σ → String → Cell) (first second : Update × σ) : Prop :=
  (first.1.outcome = .ok () ↔ second.1.outcome = .ok ()) ∧
    first.1.buffer = second.1.buffer ∧ ∀ key, value first.2 key = value second.2 key

/-- Two ways of writing a batch do the same if one of them succeeds. -/
def SameStoring (value : σ → String → Cell) (first second : Outcome Unit × σ) : Prop :=
  first.1 = .ok () → second.1 = .ok () ∧ ∀ key, value first.2 key = value second.2 key

theorem retrieveChunks_same (hkeeps : pipeline.store.Keeps value cell.answering)
    (hread : cell.answering.KeepsOnRead) (hcodec : pipeline.codec.ReadsOwn) :
    SameRetrieval value (pipeline.retrieveChunks rules schedule batch shape buffer state)
      (pipeline.retrieveChunks rules' schedule' batch shape buffer state) := by
  cases hplans : pipeline.plan batch shape buffer with
  | error error =>
    rw [retrieveChunks_unplanned hplans, retrieveChunks_unplanned hplans]
    exact ⟨Iff.rfl, rfl, fun _ => rfl⟩
  | ok plans =>
    have hreads := readJobs_readOn pipeline hcodec plans
    have hvalue : ∀ rules schedule key,
        value (pipeline.readRegions rules schedule plans state).2 key = value state key :=
      fun rules schedule key => dispatch_reads_value hkeeps hread hreads key
    have hvalues : ∀ key, value (pipeline.readRegions rules schedule plans state).2 key =
        value (pipeline.readRegions rules' schedule' plans state).2 key := by
      intro key
      rw [hvalue, hvalue]
    rcases hone : pipeline.readRegions rules schedule plans state with
      ⟨error | regions, after⟩
    · rcases hother : pipeline.readRegions rules' schedule' plans state with
        ⟨error' | regions, after'⟩
      · rw [retrieveChunks_unread hplans hone, retrieveChunks_unread hplans hother]
        rw [hone, hother] at hvalues
        exact ⟨by simp [Update.failed], rfl, hvalues⟩
      · -- the same jobs cannot fail under one dispatcher and succeed under the other
        have hok : (pipeline.readRegions rules schedule plans state).1 = .ok regions :=
          dispatch_ok_congr hkeeps hread (Or.inr hreads) (congrArg Prod.fst hother)
        rw [hone] at hok
        cases hok
    · have hok : (pipeline.readRegions rules' schedule' plans state).1 = .ok regions :=
        dispatch_ok_congr hkeeps hread (Or.inr hreads) (congrArg Prod.fst hone)
      rw [retrieveChunks_read hplans hone, retrieveChunks_read hplans (Prod.ext hok rfl)]
      rw [hone] at hvalues
      exact ⟨Iff.rfl, rfl, hvalues⟩

theorem storeChunks_same (hkeeps : pipeline.store.Keeps value cell.answering)
    (hread : cell.answering.KeepsOnRead) (hkeys : (batch.map fun entry => entry.chunk.key).Nodup) :
    SameStoring value (pipeline.storeChunks rules schedule batch shape buffer state)
      (pipeline.storeChunks rules' schedule' batch shape buffer state) := by
  intro hok
  cases hregions : pipeline.prepare batch shape buffer with
  | error error =>
    rw [storeChunks_unprepared hregions] at hok
    cases hok
  | ok regions =>
    have hkeys' : (regions.map fun entry => entry.1.chunk.key).Nodup :=
      (keys_of_prepare hregions).symm ▸ hkeys
    have hapart : Job.StayApart _ (pipeline.writeJobs regions) := writeJobs_stayApart hkeys'
    rw [storeChunks_prepared hregions, writeRegions_eq] at hok ⊢
    rw [storeChunks_prepared hregions, writeRegions_eq]
    rcases hone : dispatch rules pipeline.store schedule (pipeline.writeJobs regions) state with
      ⟨error | values, after⟩
    · rw [hone] at hok
      cases hok
    · have hother : (dispatch rules' pipeline.store schedule' (pipeline.writeJobs regions) state).1
          = .ok values :=
        dispatch_ok_congr hkeeps hread hapart (congrArg Prod.fst hone)
      refine ⟨by rw [hother]; rfl, ?_⟩
      intro key
      rw [dispatch_value hkeeps hread hapart hone,
        dispatch_value hkeeps hread hapart (Prod.ext hother rfl)]

end Pipeline

/-- **The order of the calls of a batch does not matter.** On a table whose calls fail, if
at all, for their kind and key, and with a codec that reads nothing but the chunk that it
decodes, batches of entries with keys of their own agree with the sequence of their jobs
under every schedule. So any two dispatchers read the same bytes into a buffer, and leave
the same values where they succeed in writing. -/
theorem batches_order_independent (refuses : Verb → String → Bool) {codec : Codec}
    (hcodec : codec.ReadsOwn) (config : Config) (table : Table) :
    (∀ plans : List ChunkPlan, (plans.map fun plan => plan.chunk.key).Nodup →
      ∀ rules schedule, AgreesWith Table.value id
        ((Table.pipeline refuses codec config).readRegions rules schedule plans table)
        (Job.runAll (Table.store refuses) ((Table.pipeline refuses codec config).readJobs plans)
          table)) ∧
    (∀ regions : List (ChunkPlan × Bytes), (regions.map fun entry => entry.1.chunk.key).Nodup →
      ∀ rules schedule, AgreesWith Table.value (fun _ => ())
        ((Table.pipeline refuses codec config).writeRegions rules schedule regions table)
        (Job.runAll (Table.store refuses) ((Table.pipeline refuses codec config).writeJobs regions)
          table)) ∧
    ∀ batch shape buffer, (batch.map fun entry => entry.chunk.key).Nodup →
      ∀ rules rules' schedule schedule',
      SameRetrieval Table.value
        ((Table.pipeline refuses codec config).retrieveChunks rules schedule batch shape buffer
          table)
        ((Table.pipeline refuses codec config).retrieveChunks rules' schedule' batch shape buffer
          table) ∧
      SameStoring Table.value
        ((Table.pipeline refuses codec config).storeChunks rules schedule batch shape buffer table)
        ((Table.pipeline refuses codec config).storeChunks rules' schedule' batch shape buffer
          table) := by
  have hkeeps := Table.store_keeps refuses
  have hread := Cell.refusing_keepsOnRead refuses
  refine ⟨?_, ?_, ?_⟩
  · intro plans hkeys rules schedule
    exact readRegions_agrees hkeeps hread hcodec
  · intro regions hkeys rules schedule
    exact writeRegions_agrees hkeeps hread hkeys
  · intro batch shape buffer hkeys rules rules' schedule schedule'
    exact ⟨retrieveChunks_same hkeeps hread hcodec, storeChunks_same hkeeps hread hkeys⟩

namespace Pair

/-- The pipeline in which no call is refused. -/
def serving : Pipeline Table := Pair.pipeline fun _ _ => false

/-- Two chunks are written by one worker in order, and by two workers whose calls
alternate. -/
theorem written_in_any_order :
    serving.codec.ReadsOwn ∧
      (serving.storeChunks ⟨.abandon, 1⟩ [] batch [3] [1, 2, 3] {}).1 = .ok () ∧
      (serving.storeChunks ⟨.drain, 2⟩ alternating batch [3] [1, 2, 3] {}).1 = .ok () := by
  have hcodec : serving.codec.ReadsOwn := fun _ _ => True.intro
  have hok : (serving.storeChunks ⟨.abandon, 1⟩ [] batch [3] [1, 2, 3] {}).1 = .ok () := rfl
  have hsame := (batches_order_independent (fun _ _ => false) hcodec {} {}).2.2 batch [3]
    [1, 2, 3] keys_nodup ⟨.abandon, 1⟩ ⟨.drain, 2⟩ [] alternating
  exact ⟨hcodec, hok, (hsame.2 hok).1⟩

end Pair

end ChunkedArray
