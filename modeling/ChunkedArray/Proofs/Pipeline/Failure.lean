import ChunkedArray.Proofs.Pipeline.Keys

/-!
# ChunkedArray.Proofs.Pipeline.Failure

What a batch of writes leaves behind if some of its calls fail.

The store is any map whose calls may fail in any pattern (`Store.IsMap`). The write of
a chunk makes its one change with its last call, so under the key of an entry there is
either the value from before or all that the write puts there, whatever has failed in
this entry or in others (`write_arrived`, `write_absent`).
-/

namespace ChunkedArray

variable {σ : Type} {pipeline : Pipeline σ} {value : σ → String → Cell} {rules : Rules}
  {schedule : Schedule} {regions : List (ChunkPlan × Bytes)} {state : σ}

namespace Pipeline

/-- The outcomes of the writes of a batch, in the order of their arrival. -/
def writeArrivals (pipeline : Pipeline σ) (rules : Rules) (schedule : Schedule)
    (regions : List (ChunkPlan × Bytes)) (state : σ) : List (Arrival Unit) :=
  (Crew.work rules pipeline.store schedule (pipeline.writeJobs regions) state).1.arrivals

/-- The write of an entry succeeds on one value under its key and puts another one there;
no value stands for an absent one. -/
def Writes (pipeline : Pipeline σ) (entry : ChunkPlan × Bytes) (old new : Cell) : Prop :=
  (pipeline.writeJob entry).run Cell.store old = (.ok (), new)

end Pipeline

/-- What holds of the outcome of an entry and the value under its key afterwards. -/
def WriteDone (pipeline : Pipeline σ) (regions : List (ChunkPlan × Bytes)) (old : Nat → Cell)
    (place : Nat) (outcome : Outcome Unit) (after : Cell) : Prop :=
  ∀ entry, regions[place]? = some entry →
    (∀ error, outcome = .error error → after = old place) ∧
      (outcome = .ok () → pipeline.Writes entry (old place) after)

theorem writes_admitted (hmap : pipeline.store.IsMap value) {keys : List String}
    (hjobs : Job.StayApart keys (pipeline.writeJobs regions)) (state : σ) (place : Nat)
    (job : Job Unit)
    (hjob : (pipeline.writeJobs regions)[place]? = some job) :
    (Division.byKey hmap Cell.unreliable_keepsOnRead keys).Admits
      (WriteDone pipeline regions (Division.shareAt value keys · state)) state place job := by
  refine ⟨Division.suits_of_stayApart hmap _ hjobs place job hjob, ?_⟩
  rw [Pipeline.writeJobs, List.getElem?_map] at hjob
  obtain ⟨entry, hentry, rfl⟩ := Option.map_eq_some_iff.mp hjob
  have hcommits : (pipeline.writeJob entry).Commits := entry.1.write_commits _ _ _ _
  refine Job.ensures_mono ?_
    (Job.ensures_of_commits hcommits (Division.shareAt value keys place state))
  rintro outcome after ⟨hfailed, hdone⟩ other hother
  obtain rfl : entry = other := Option.some.inj (hentry.symm.trans hother)
  exact ⟨hfailed, hdone ()⟩

/-! ### The outcomes of a batch -/

/-- A batch that fails has the failure of one of its entries. -/
theorem exists_failed_of_writeRegions {error : AccessError}
    (h : (pipeline.writeRegions rules schedule regions state).1 = .error error) :
    ∃ place, ⟨place, .error error⟩ ∈ pipeline.writeArrivals rules schedule regions state := by
  rw [writeRegions_eq] at h
  rcases dispatch_cases rules pipeline.store schedule (pipeline.writeJobs regions) state with
    ⟨failure, place, herror, hmem⟩ | ⟨values, hok, -⟩
  · rw [herror] at h
    rw [← Except.error.inj h]
    exact ⟨place, hmem⟩
  · rw [hok] at h
    cases h

/-- In a batch that succeeds, every entry does. -/
theorem arrived_of_writeRegions
    (h : (pipeline.writeRegions rules schedule regions state).1 = .ok ()) {place : Nat}
    (hplace : place < regions.length) :
    ⟨place, .ok ()⟩ ∈ pipeline.writeArrivals rules schedule regions state := by
  rw [writeRegions_eq] at h
  rcases dispatch_cases rules pipeline.store schedule (pipeline.writeJobs regions) state with
    ⟨failure, _, herror, -⟩ | ⟨values, -, hlength, hvalues⟩
  · rw [herror] at h
    cases h
  · rw [Pipeline.writeJobs, List.length_map] at hlength
    exact hvalues place (by omega)

/-- Where the batch is drained, the outcome of every entry arrives. -/
theorem arrived_of_drain (hpolicy : rules.policy = .drain) {place : Nat}
    (hplace : place < regions.length) :
    ∃ outcome, ⟨place, outcome⟩ ∈ pipeline.writeArrivals rules schedule regions state := by
  have hjob : place < (pipeline.writeJobs regions).length := by
    rwa [Pipeline.writeJobs, List.length_map]
  rcases Crew.work_over rules pipeline.store schedule (pipeline.writeJobs regions) state hjob with
    harrived | habandoned
  · exact harrived
  · exact absurd ((Crew.work_tracks _ _ _ _ _).abandoned place habandoned)
      (Crew.not_mayGiveUp hpolicy _)

/-! ### The keys of a batch -/

section Keys

variable (hmap : pipeline.store.IsMap value)
  (hkeys : (regions.map fun entry => entry.1.chunk.key).Nodup)

include hmap hkeys

/-- The key of an entry whose outcome has arrived. -/
theorem write_arrived {place : Nat} {entry : ChunkPlan × Bytes} {outcome : Outcome Unit}
    (hentry : regions[place]? = some entry)
    (hmem : ⟨place, outcome⟩ ∈ pipeline.writeArrivals rules schedule regions state) :
    (∀ error, outcome = .error error →
      value (pipeline.writeRegions rules schedule regions state).2 entry.1.chunk.key =
        value state entry.1.chunk.key) ∧
    (outcome = .ok () → pipeline.Writes entry (value state entry.1.chunk.key)
      (value (pipeline.writeRegions rules schedule regions state).2 entry.1.chunk.key)) := by
  have hkey : (regions.map fun entry => entry.1.chunk.key)[place]? = some entry.1.chunk.key := by
    rw [List.getElem?_map, hentry, Option.map_some]
  have hdone := Division.work_arrived
    (writes_admitted hmap (writeJobs_stayApart hkeys) state) hmem entry hentry
  simp only [Division.byKey, Division.shareAt_eq hkey] at hdone
  exact hdone

/-- The key of an entry whose outcome has not arrived. -/
theorem write_absent {place : Nat} {entry : ChunkPlan × Bytes}
    (hentry : regions[place]? = some entry) (habsent : ∀ outcome,
      ⟨place, outcome⟩ ∉ pipeline.writeArrivals rules schedule regions state) :
    value (pipeline.writeRegions rules schedule regions state).2 entry.1.chunk.key =
      value state entry.1.chunk.key := by
  have hkey : (regions.map fun entry => entry.1.chunk.key)[place]? = some entry.1.chunk.key := by
    rw [List.getElem?_map, hentry, Option.map_some]
  have hsame := Division.work_absent
    (writes_admitted hmap (writeJobs_stayApart hkeys) state) habsent
  simp only [Division.byKey, Division.shareAt_eq hkey] at hsame
  exact hsame

/-- A key that no entry names. -/
theorem write_elsewhere {key : String}
    (hkey : key ∉ regions.map fun entry => entry.1.chunk.key) :
    value (pipeline.writeRegions rules schedule regions state).2 key = value state key :=
  dispatch_elsewhere hmap Cell.unreliable_keepsOnRead (writeJobs_stayApart hkeys) hkey

/-- **The key of an entry after a batch of writes.** If the entry fails, the key keeps its
value; otherwise it keeps its value or has what the write puts there, and where the work
in flight is drained it has what the write puts there. -/
theorem write_entry {place : Nat} {entry : ChunkPlan × Bytes}
    (hentry : regions[place]? = some entry) :
    let arrivals := pipeline.writeArrivals rules schedule regions state
    let old := value state entry.1.chunk.key
    let new := value (pipeline.writeRegions rules schedule regions state).2 entry.1.chunk.key
    (∀ error, ⟨place, .error error⟩ ∈ arrivals → new = old) ∧
      (new = old ∨ pipeline.Writes entry old new) ∧
      (rules.policy = .drain → (∀ error, ⟨place, .error error⟩ ∉ arrivals) →
        pipeline.Writes entry old new) := by
  intro arrivals old new
  have hfailed : ∀ error, ⟨place, .error error⟩ ∈ arrivals → new = old :=
    fun error hmem => (write_arrived hmap hkeys hentry hmem).1 error rfl
  have hwritten : ⟨place, .ok ()⟩ ∈ arrivals → pipeline.Writes entry old new :=
    fun hmem => (write_arrived hmap hkeys hentry hmem).2 rfl
  refine ⟨hfailed, ?_, ?_⟩
  · by_cases harrived : ∃ outcome, ⟨place, outcome⟩ ∈ arrivals
    · obtain ⟨error | ⟨⟩, hmem⟩ := harrived
      · exact Or.inl (hfailed error hmem)
      · exact Or.inr (hwritten hmem)
    · exact Or.inl (write_absent hmap hkeys hentry fun outcome hmem => harrived ⟨outcome, hmem⟩)
  · -- where nothing is given up, the outcome of the entry has arrived
    intro hpolicy hno
    obtain ⟨error | ⟨⟩, hmem⟩ :=
      arrived_of_drain hpolicy (List.getElem?_eq_some_iff.mp hentry).1
    · exact absurd hmem (hno error)
    · exact hwritten hmem

end Keys

/-! ### Batches -/

/-- **A batch of writes tears no chunk**, whichever calls fail, in whatever order they are
made. Keys that the batch does not name keep their values, and so do all keys if the
batch is not fit to be planned. The key of an entry that fails keeps its value; any other
one keeps its value or has all that the write of the entry puts there. Where the work in
flight is drained, the write of every entry that does not fail has been done. -/
theorem storeChunks_tears_no_chunk (hmap : pipeline.store.IsMap value) (rules : Rules)
    (schedule : Schedule) {batch : List BatchEntry}
    (hkeys : (batch.map fun entry => entry.chunk.key).Nodup) (shape : Shape) (buffer : Bytes)
    (state : σ) :
    let ended := pipeline.storeChunks rules schedule batch shape buffer state
    (∀ key, key ∉ (batch.map fun entry => entry.chunk.key) →
      value ended.2 key = value state key) ∧
    (∀ error, pipeline.prepare batch shape buffer = .error error → ended.2 = state) ∧
    ∀ regions, pipeline.prepare batch shape buffer = .ok regions →
      let arrivals := pipeline.writeArrivals rules schedule regions state
      (regions.map fun entry => entry.1.chunk.key) = (batch.map fun entry => entry.chunk.key) ∧
      (∀ error, ended.1 = .error error → ∃ place, ⟨place, .error error⟩ ∈ arrivals) ∧
      ∀ (place : Nat) entry, regions[place]? = some entry →
        let old := value state entry.1.chunk.key
        let new := value ended.2 entry.1.chunk.key
        (∀ error, ⟨place, .error error⟩ ∈ arrivals → new = old) ∧
        (new = old ∨ pipeline.Writes entry old new) ∧
        (rules.policy = .drain → (∀ error, ⟨place, .error error⟩ ∉ arrivals) →
          pipeline.Writes entry old new) := by
  intro ended
  cases hregions : pipeline.prepare batch shape buffer with
  | error error =>
    have hended : ended = (.error error, state) := storeChunks_unprepared hregions _ _ _
    refine ⟨?_, ?_, ?_⟩
    · intro key _
      rw [hended]
    · intro _ _
      rw [hended]
    · intro regions h
      cases h
  | ok regions =>
    have hended : ended = pipeline.writeRegions rules schedule regions state :=
      storeChunks_prepared hregions _ _ _
    have hnames := keys_of_prepare hregions
    have hkeys' : (regions.map fun entry => entry.1.chunk.key).Nodup := hnames.symm ▸ hkeys
    rw [hended]
    refine ⟨?_, ?_, ?_⟩
    · intro key hkey
      exact write_elsewhere hmap hkeys' (hnames.symm ▸ hkey)
    · intro error h
      cases h
    · intro regions' h
      obtain rfl := Except.ok.inj h
      refine ⟨hnames, ?_, ?_⟩
      · intro error herror
        exact exists_failed_of_writeRegions herror
      · intro place entry hentry
        exact write_entry hmap hkeys' hentry

namespace Pair

/-- The pipeline in which the second chunk cannot be put. -/
def refusing : Pipeline Table := Pair.pipeline fun verb key => verb = .set && key = "b"

/-- The end of the batch in that pipeline. -/
def refused : Outcome Unit × Table :=
  refusing.storeChunks ⟨.drain, 2⟩ alternating batch [3] [1, 2, 3] {}

/-- The first entry of the batch with its region. -/
def first : ChunkPlan × Bytes := (⟨⟨"a", [2], "uint8", [9]⟩, [⟨0, 1⟩], [⟨0, 1⟩]⟩, [1])

/-- The second entry of the batch with its region. -/
def second : ChunkPlan × Bytes := (⟨⟨"b", [2], "uint8", [9]⟩, [⟨0, 2⟩], [⟨1, 2⟩]⟩, [2, 3])

/-- The refused chunk stays absent, and the other one is written. -/
theorem refused_tears_no_chunk :
    refused.1 = .error (Table.refusal .set "b") ∧ refused.2.value "a" = some [0xEE, 1, 9] ∧
      refused.2.value "b" = none ∧ refused.2.value "c" = none := by
  have hmap : refusing.store.IsMap Table.value := Table.store_isMap _
  obtain ⟨helsewhere, -, hentries⟩ := storeChunks_tears_no_chunk hmap ⟨.drain, 2⟩
    alternating keys_nodup [3] [1, 2, 3] {}
  obtain ⟨-, -, hkey⟩ := hentries [first, second] rfl
  have harrivals : refusing.writeArrivals ⟨.drain, 2⟩ alternating [first, second] {} =
      [⟨1, .error (Table.refusal .set "b")⟩, ⟨0, .ok ()⟩] := rfl
  have hrun : (refusing.writeJob first).run Cell.store none = (.ok (), some [0xEE, 1, 9]) := rfl
  have hwritten : refusing.Writes first none (refused.2.value "a") :=
    (hkey 0 first rfl).2.2 rfl (by rw [harrivals]; simp)
  have hkept : refused.2.value "b" = none :=
    (hkey 1 second rfl).1 (Table.refusal .set "b") (by rw [harrivals]; simp)
  rw [Pipeline.Writes, hrun] at hwritten
  exact ⟨rfl, (congrArg Prod.snd hwritten).symm, hkept, helsewhere "c" (by decide)⟩

end Pair

end ChunkedArray
