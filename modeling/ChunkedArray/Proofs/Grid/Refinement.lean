import ChunkedArray.Proofs.Grid.Entry
import ChunkedArray.Proofs.Pipeline.Order

/-!
# ChunkedArray.Proofs.Grid.Refinement

A pipeline answers as a grid does, over runs of any length.

The store `Represents` a grid if what is stored under every key shows the elements of the
grid there. Each request keeps this and is answered as the grid answers it
(`perform_refines`), whatever the rules and the schedules are that its jobs run by; so a
run of requests is, too (`performAll_refines`).
-/

namespace ChunkedArray

/-- The values under all keys show the elements of the grid. -/
def Represents (codec : Codec) (layout : Layout) (grid : Grid) (values : String → Cell) : Prop :=
  ∀ key, Shows codec (layout.chunk key) (grid key) (values key)

section Refinement

variable {σ : Type} {value : σ → String → Cell} {pipeline : Pipeline σ} {codec : Codec}
  {layout : Layout} {grid : Grid} {values values' : String → Cell} {rules : Rules}
  {schedule : Schedule} {batch : List BatchEntry} {shape : Shape} {buffer : Bytes} {chunk : Chunk}
  {state state' : σ}

/-! ### Stores and grids -/

theorem Layout.small_of_eq (h : chunk = layout.chunk chunk.key) : chunk.Small := by
  have hsmall := layout.small chunk.key
  rwa [← h] at hsmall

theorem Layout.faithful_of_eq (hcodec : ∀ key, codec.Faithful (layout.chunk key))
    (h : chunk = layout.chunk chunk.key) : codec.Faithful chunk := by
  have hfaithful := hcodec chunk.key
  rwa [← h] at hfaithful

/-- A store in which nothing was put represents the grid of fill values. -/
theorem represents_initial (h : ∀ key, values key = none) :
    Represents codec layout (Grid.initial layout) values := by
  intro key
  refine ⟨(layout.chunk key).filled (layout.chunk key).shape.elementCount, ?_,
    Chunk.Lists.filled _⟩
  rw [h key]
  rfl

theorem Represents.shows (h : Represents codec layout grid values)
    (hchunk : chunk = layout.chunk chunk.key) :
    Shows codec chunk (grid chunk.key) (values chunk.key) := by
  have hshows := h chunk.key
  rwa [← hchunk] at hshows

theorem Represents.congr (h : Represents codec layout grid values)
    (hsame : ∀ key, values' key = values key) : Represents codec layout grid values' := by
  intro key
  rw [hsame key]
  exact h key

/-- The elements of a grid have the size of those of their chunk. -/
theorem Represents.length_eq (h : Represents codec layout grid values)
    (hchunk : chunk = layout.chunk chunk.key) {coordinate : Coordinate}
    (hcoordinate : chunk.shape.Holds coordinate) :
    (grid chunk.key coordinate).length = chunk.elementSize := by
  obtain ⟨decoded, -, hlists⟩ := h.shows hchunk
  exact hlists.length_of_holds hcoordinate

namespace Grid

theorem storeEntry_own (grid : Grid) (shape : Shape) (buffer : Bytes) (entry : BatchEntry) :
    grid.storeEntry shape buffer entry entry.chunk.key =
      putAll (entry.chunkCoordinates.zip (entry.outElements shape buffer))
        (grid entry.chunk.key) :=
  Function.update_self ..

theorem storeEntry_other (grid : Grid) (shape : Shape) (buffer : Bytes) {entry : BatchEntry}
    {key : String} (h : key ≠ entry.chunk.key) :
    grid.storeEntry shape buffer entry key = grid key :=
  Function.update_of_ne h ..

theorem foldl_storeEntry_other {key : String} (h : key ∉ batch.map fun entry => entry.chunk.key) :
    batch.foldl (storeEntry shape buffer) grid key = grid key := by
  induction batch generalizing grid with
  | nil => rfl
  | cons entry batch ih =>
    rw [List.map_cons, List.mem_cons, not_or] at h
    rw [List.foldl_cons, ih h.2, storeEntry_other _ _ _ h.1]

/-- An entry with a key of its own is stored as it is alone. -/
theorem foldl_storeEntry_own (hkeys : (batch.map fun entry => entry.chunk.key).Nodup)
    {entry : BatchEntry} (hentry : entry ∈ batch) :
    batch.foldl (storeEntry shape buffer) grid entry.chunk.key =
      putAll (entry.chunkCoordinates.zip (entry.outElements shape buffer))
        (grid entry.chunk.key) := by
  -- what is stored before and after the entry is stored under other keys
  induction batch generalizing grid with
  | nil => simp at hentry
  | cons first batch ih =>
    rw [List.map_cons, List.nodup_cons] at hkeys
    rw [List.foldl_cons]
    rcases List.mem_cons.mp hentry with rfl | hmem
    · rw [foldl_storeEntry_other hkeys.1, storeEntry_own]
    · have hne : entry.chunk.key ≠ first.chunk.key :=
        fun heq => hkeys.1 (heq ▸ List.mem_map_of_mem hmem)
      rw [ih hkeys.2 hmem, storeEntry_other _ _ _ hne]

end Grid

section Pipeline

variable (hkeeps : pipeline.store.Keeps value Cell.store.answering)
  (hcodec : ∀ key, pipeline.codec.Faithful (layout.chunk key))
  (hrep : Represents pipeline.codec layout grid (value state))

/-! ### Storing -/

section Storing

include hkeeps hcodec hrep

theorem storeChunk_represents (hchunk : chunk = layout.chunk chunk.key) {decoded : Bytes}
    (h : pipeline.storeChunk chunk decoded state = (.ok (), state')) :
    Represents pipeline.codec layout (grid.storeEntry chunk.shape decoded (.ofChunk chunk))
      (value state') := by
  have hcalls := storeChunkJob_callsOnly pipeline chunk decoded
  have hown := hkeeps.run_own hcalls state
  rw [Pipeline.storeChunk] at h
  rw [h] at hown
  intro key
  by_cases hkey : key = chunk.key
  · subst hkey
    have hshows := storeChunkJob_shows (Layout.small_of_eq hchunk)
      (Layout.faithful_of_eq hcodec hchunk) (hrep.shows hchunk) hown.symm
    have hstored := grid.storeEntry_own chunk.shape decoded (.ofChunk chunk)
    rw [← hchunk]
    show Shows pipeline.codec chunk
      (grid.storeEntry chunk.shape decoded (.ofChunk chunk) (BatchEntry.ofChunk chunk).chunk.key) _
    rw [hstored]
    exact hshows
  · have hother := hkeeps.run_others hcalls hkey state
    rw [h] at hother
    rw [grid.storeEntry_other chunk.shape decoded hkey, hother]
    exact hrep key

/-- The key of an entry after a batch that has succeeded. -/
theorem storeChunks_shows (hkeys : (batch.map fun entry => entry.chunk.key).Nodup)
    (h : pipeline.storeChunks rules schedule batch shape buffer state = (.ok (), state'))
    {entry : BatchEntry} (hentry : entry ∈ batch)
    (hchunk : entry.chunk = layout.chunk entry.chunk.key) :
    Shows pipeline.codec entry.chunk
      (putAll (entry.chunkCoordinates.zip (entry.outElements shape buffer)) (grid entry.chunk.key))
      (value state' entry.chunk.key) := by
  obtain ⟨regions, results, hregions, hdispatch⟩ := storeChunks_eq_ok h
  have hapart : Job.StayApart (batch.map fun entry => entry.chunk.key)
      (pipeline.writeJobs regions) := by
    rw [← keys_of_prepare hregions] at hkeys ⊢
    exact writeJobs_stayApart hkeys
  obtain ⟨place, hplace⟩ := List.mem_iff_getElem?.mp hentry
  obtain ⟨region, hregion, ⟨hplanned, hsound⟩, hgather⟩ :=
    exists_of_forall₂ (prepare_eq_ok hregions) hplace
  have hkey : (batch.map fun entry => entry.chunk.key)[place]? = some entry.chunk.key := by
    rw [List.getElem?_map, hplace, Option.map_some]
  have hjob : (pipeline.writeJobs regions)[place]? = some (pipeline.writeJob region) := by
    rw [Pipeline.writeJobs, List.getElem?_map, hregion, Option.map_some]
  obtain ⟨⟨⟩, -, hrun⟩ := dispatch_run hkeeps Cell.store_keepsOnRead hapart hdispatch hkey hjob
  exact store_entry_shows hplanned hsound (Layout.small_of_eq hchunk)
    (Layout.faithful_of_eq hcodec hchunk) hgather (hrep.shows hchunk) hrun

/-- **A batch of writes** puts the elements of its entries and nothing else. -/
theorem storeChunks_represents
    (hchunks : ∀ entry ∈ batch, entry.chunk = layout.chunk entry.chunk.key)
    (hkeys : (batch.map fun entry => entry.chunk.key).Nodup)
    (h : pipeline.storeChunks rules schedule batch shape buffer state = (.ok (), state')) :
    Represents pipeline.codec layout (batch.foldl (Grid.storeEntry shape buffer) grid)
      (value state') := by
  intro key
  by_cases hkey : key ∈ batch.map fun entry => entry.chunk.key
  · -- the key of an entry
    obtain ⟨entry, hentry, rfl⟩ := List.mem_map.mp hkey
    have hchunk := hchunks entry hentry
    have hshows := storeChunks_shows hkeeps hcodec hrep hkeys h hentry hchunk
    rw [← hchunk, Grid.foldl_storeEntry_own hkeys hentry]
    exact hshows
  · -- a key that no entry names
    obtain ⟨regions, results, hregions, hdispatch⟩ := storeChunks_eq_ok h
    have hnames := keys_of_prepare hregions
    have hsame : value (dispatch rules pipeline.store schedule (pipeline.writeJobs regions) state).2
        key = value state key :=
      dispatch_elsewhere hkeeps Cell.store_keepsOnRead
        (writeJobs_stayApart (hnames.symm ▸ hkeys)) (hnames ▸ hkey)
    rw [hdispatch] at hsame
    rw [Grid.foldl_storeEntry_other hkey, hsame]
    exact hrep key

end Storing

/-! ### Retrieving -/

section Retrieving

include hrep

theorem readChunk_wholeChunk (hchunk : chunk = layout.chunk chunk.key) {limit : UInt64}
    {decoded : Bytes}
    (h : ((readChunk pipeline.codec limit chunk).run Cell.store (value state chunk.key)).1 =
      .ok decoded) : decoded = grid.wholeChunk chunk := by
  obtain ⟨-, hlists, -⟩ := readChunk_shows (hrep.shows hchunk) (Prod.ext h rfl)
  rw [Grid.wholeChunk, ← Box.coordinates_whole]
  exact hlists.eq_flatMap

/-- A region of an entry is read as its elements. -/
theorem readAs_of_read (hreads : pipeline.codec.ReadsOwn)
    (hcodec : ∀ key, pipeline.codec.Faithful (layout.chunk key)) {size : Nat} {entry : BatchEntry}
    (hchunk : entry.chunk = layout.chunk entry.chunk.key) {region : ChunkPlan × Bytes}
    (hplan : entry.PlannedAs shape region.1 ∧ region.1.Sound size shape) {limit : UInt64}
    (h : ((region.1.read pipeline.codec limit).run Cell.store
      (value state region.1.chunk.key)).1 = .ok region.2) :
    entry.ReadAs shape size grid region := by
  refine ⟨hplan, ?_⟩
  have hfaithful := Layout.faithful_of_eq hcodec hchunk
  have hsmall := Layout.small_of_eq hchunk
  have hshows := hrep.shows hchunk
  rw [← hplan.1.chunk_eq] at hfaithful hsmall hshows ⊢
  exact read_shows hplan.2.chunkFits hsmall hreads hfaithful hshows (Prod.ext h rfl)

include hkeeps

theorem retrieveChunk_represents (hchunk : chunk = layout.chunk chunk.key) {decoded : Bytes}
    (h : pipeline.retrieveChunk chunk state = (.ok decoded, state')) :
    decoded = grid.wholeChunk chunk ∧ Represents pipeline.codec layout grid (value state') := by
  have hreads := readChunk_readsOnly pipeline.codec pipeline.limit chunk
  have hown := hkeeps.run_own (Job.callsOnly_mono (fun _ hcall => hcall.1) hreads) state
  have hsame := hkeeps.run_reads Cell.store_keepsOnRead hreads state
  rw [Pipeline.retrieveChunk] at h
  rw [h] at hown hsame
  exact ⟨readChunk_wholeChunk hrep hchunk (congrArg Prod.fst hown.symm), hrep.congr hsame⟩

/-- Whole chunks are read as their elements. -/
theorem retrieveWholeChunks_represents {chunks : List Chunk} {parts : List Bytes}
    (hchunks : ∀ chunk ∈ chunks, chunk = layout.chunk chunk.key)
    (h : pipeline.retrieveWholeChunks rules schedule chunks state = (.ok parts, state')) :
    parts = chunks.map grid.wholeChunk ∧
      Represents pipeline.codec layout grid (value state') := by
  obtain ⟨hparts, hsame⟩ := dispatch_reads hkeeps Cell.store_keepsOnRead
    (readChunk_readsOnly pipeline.codec pipeline.limit) h
  have hall : List.Forall₂ (fun chunk part => part = grid.wholeChunk chunk) chunks parts := by
    refine ((List.forall₂_and_left _ _).mpr ⟨hchunks, hparts⟩).imp ?_
    intro chunk part ⟨hchunk, hpart⟩
    exact readChunk_wholeChunk hrep hchunk hpart
  have hmap : parts.map id = chunks.map grid.wholeChunk := map_eq_of_forall₂ hall fun _ _ h => h
  rw [List.map_id] at hmap
  exact ⟨hmap, hrep.congr hsame⟩

/-- **A batch of reads** copies the elements of its entries to the buffer. -/
theorem retrieveChunks_represents (hreads : pipeline.codec.ReadsOwn)
    (hcodec : ∀ key, pipeline.codec.Faithful (layout.chunk key))
    (hchunks : ∀ entry ∈ batch, entry.chunk = layout.chunk entry.chunk.key)
    (hok : (pipeline.retrieveChunks rules schedule batch shape buffer state).1.outcome = .ok ()) :
    (pipeline.retrieveChunks rules schedule batch shape buffer state).1.buffer =
        batch.foldl (grid.readEntry shape) buffer ∧
      Represents pipeline.codec layout grid
        (value (pipeline.retrieveChunks rules schedule batch shape buffer state).2) := by
  obtain ⟨plans, regions, after, hplans, hregions, hended⟩ := retrieveChunks_eq_ok hok
  obtain ⟨hparts, hsame⟩ := dispatch_reads hkeeps Cell.store_keepsOnRead
    (fun plan => plan.read_readsOnly hreads pipeline.limit) hregions
  have hall : List.Forall₂ (BatchEntry.ReadAs · shape buffer.length grid ·) batch
      (plans.zip regions) := by
    have hplanned := forall₂_zip_right (planBatch_eq_ok hplans) hparts
    refine ((List.forall₂_and_left _ _).mpr ⟨hchunks, hplanned⟩).imp ?_
    intro entry region ⟨hchunk, hplan, hread⟩
    exact readAs_of_read hrep hreads hcodec hchunk hplan hread
  have hscatter := scatterAll_elements rfl hall
    (fun entry hentry => Layout.small_of_eq (hchunks entry hentry))
    fun entry hentry _ hholds => hrep.length_eq (hchunks entry hentry) hholds
  rw [hended, hscatter]
  exact ⟨rfl, hrep.congr hsame⟩

end Retrieving

/-! ### Requests -/

section Requests

variable (hreads : pipeline.codec.ReadsOwn)

include hkeeps hreads hcodec

/-- **A request is answered as the grid answers it**, and what it leaves represents the
grid that it leaves there. -/
theorem perform_refines (hrep : Represents pipeline.codec layout grid (value state))
    {request : Request} (hover : request.Over layout) {reply : Reply}
    (h : pipeline.perform request state = (.ok reply, state')) :
    reply = (grid.perform request).1 ∧
      Represents pipeline.codec layout (grid.perform request).2 (value state') := by
  cases request with
  | storeChunk chunk decoded =>
    obtain ⟨hreply, rfl⟩ := Prod.mk.inj h
    obtain ⟨⟨⟩, hok, rfl⟩ := Outcome.map_eq_ok.mp hreply
    exact ⟨rfl, storeChunk_represents hkeeps hcodec hrep hover (Prod.ext hok rfl)⟩
  | storeChunks rules schedule batch shape buffer =>
    obtain ⟨hchunks, hkeys⟩ := hover
    obtain ⟨hreply, rfl⟩ := Prod.mk.inj h
    obtain ⟨⟨⟩, hok, rfl⟩ := Outcome.map_eq_ok.mp hreply
    exact ⟨rfl, storeChunks_represents hkeeps hcodec hrep hchunks hkeys (Prod.ext hok rfl)⟩
  | retrieveChunk chunk =>
    obtain ⟨hreply, rfl⟩ := Prod.mk.inj h
    obtain ⟨decoded, hok, rfl⟩ := Outcome.map_eq_ok.mp hreply
    obtain ⟨rfl, hafter⟩ := retrieveChunk_represents hkeeps hrep hover (Prod.ext hok rfl)
    exact ⟨rfl, hafter⟩
  | retrieveWholeChunks rules schedule chunks =>
    obtain ⟨hreply, rfl⟩ := Prod.mk.inj h
    obtain ⟨parts, hok, rfl⟩ := Outcome.map_eq_ok.mp hreply
    obtain ⟨rfl, hafter⟩ := retrieveWholeChunks_represents hkeeps hrep hover (Prod.ext hok rfl)
    exact ⟨rfl, hafter⟩
  | retrieveChunks rules schedule batch shape buffer =>
    obtain ⟨hreply, rfl⟩ := Prod.mk.inj h
    obtain ⟨⟨⟩, hok, rfl⟩ := Outcome.map_eq_ok.mp hreply
    obtain ⟨hbuffer, hafter⟩ := retrieveChunks_represents hkeeps hrep hreads hcodec hover hok
    exact ⟨congrArg Reply.buffer hbuffer, hafter⟩

/-- A run of requests that all succeed is answered as the grid answers it. -/
theorem performAll_refines (hrep : Represents pipeline.codec layout grid (value state))
    {requests : List Request} (hover : ∀ request ∈ requests, request.Over layout)
    {replies : List Reply} (h : pipeline.performAll requests state = (.ok replies, state')) :
    replies = Grid.performAll requests grid := by
  -- every request starts from a store that represents the grid that the ones before it leave
  induction requests generalizing grid state replies with
  | nil => exact (Except.ok.inj (Prod.mk.inj h).1).symm
  | cons request requests ih =>
    simp only [Pipeline.performAll] at h
    rcases hfirst : pipeline.perform request state with ⟨error | reply, between⟩
    · rw [hfirst] at h
      cases (Prod.mk.inj h).1
    · rw [hfirst] at h
      obtain ⟨hmap, rfl⟩ := Prod.mk.inj h
      obtain ⟨others, hrest, rfl⟩ := Outcome.map_eq_ok.mp hmap
      obtain ⟨hreply, hbetween⟩ :=
        perform_refines hkeeps hcodec hreads hrep (hover request (by simp)) hfirst
      have hothers := ih hbetween (fun other hother => hover other (by simp [hother]))
        (Prod.ext hrest rfl)
      rw [Grid.performAll, ← hreply, ← hothers]

end Requests

end Pipeline

end Refinement

/-- **A pipeline over a table answers as a grid does.** Nothing is stored at first. Every
key has one chunk, which is the same in all requests, and the codec keeps the bytes of
chunks of the right size. Then however many requests are performed, with whatever
settings and schedules, the answers are those of the grid of fill values, as long as all
of the requests succeed. -/
theorem pipeline_refines_grid {codec : Codec} (layout : Layout) (hreads : codec.ReadsOwn)
    (hcodec : ∀ key, codec.Faithful (layout.chunk key)) (config : Config)
    {requests : List Request} (hover : ∀ request ∈ requests, request.Over layout)
    {replies : List Reply} {table : Table}
    (h : (Table.pipeline (fun _ _ => false) codec config).performAll requests {} =
      (.ok replies, table)) :
    replies = Grid.performAll requests (Grid.initial layout) := by
  exact performAll_refines Table.store_serves hcodec hreads
    (represents_initial Table.value_empty) hover h

namespace Pair

/-- A chunk of two elements under every key. -/
def layout : Layout where
  chunk key := ⟨key, [2], "uint8", [9]⟩
  key_chunk _ := rfl
  small _ := show 2 < UInt64.size by decide

/-- A chunk is stored, a batch is stored over a part of it, and what is there is read in
three ways. -/
def requests : List Request :=
  [.storeChunk (layout.chunk "a") [1, 2],
    .storeChunks ⟨.drain, 2⟩ alternating batch [3] [5, 6, 7],
    .retrieveChunk (layout.chunk "a"),
    .retrieveWholeChunks ⟨.abandon, 1⟩ [] [layout.chunk "b", layout.chunk "c"],
    .retrieveChunks ⟨.drain, 2⟩ alternating batch [4, 1] [0, 0, 0, 8]]

/-- The answers to the requests. -/
def replies : List Reply :=
  [.stored, .stored, .chunk [5, 2], .chunks [[6, 7], [9, 9]], .buffer [5, 6, 7, 8]]

theorem faithful (key : String) : (Tagged.codec none).Faithful (layout.chunk key) where
  decode_encode _ _ _ h := Tagged.decode_encode h
  partialDecode_eq _ _ _ _ _ h _ := by cases h

/-- The run goes well, and the grid gives the same answers. -/
theorem answered_as_by_grid :
    (serving.performAll requests {}).1 = .ok replies ∧
      replies = Grid.performAll requests (Grid.initial layout) := by
  have hreads : (Tagged.codec none).ReadsOwn := fun _ _ => True.intro
  have hover : ∀ request ∈ requests, request.Over layout := by
    simp [requests, Request.Over, batch, layout]
  have hok : (serving.performAll requests {}).1 = .ok replies := rfl
  exact ⟨hok, pipeline_refines_grid layout hreads faithful {} hover (Prod.ext hok rfl)⟩

end Pair

end ChunkedArray
