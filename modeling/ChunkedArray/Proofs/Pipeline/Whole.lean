import ChunkedArray.Proofs.Pipeline.Fit
import ChunkedArray.Proofs.Pipeline.Limit
import ChunkedArray.Proofs.Pipeline.Steady

/-!
# ChunkedArray.Proofs.Pipeline.Whole

Whole chunks, by themselves and as batches.

A batch of one job is that job (`dispatch_single`), and the entry of a whole chunk is planned
as the whole chunk in the whole buffer (`plan_ofChunk`). On it the two ways to check a size
agree, and cutting and writing regions change nothing. So storing and reading a whole chunk
are storing and reading the batch of its entry, and reading many whole chunks at a time is
reading one after another (`whole_chunks_agree`).
-/

namespace ChunkedArray

variable {α σ : Type} {rules : Rules} {store : Store σ} {state : σ}

/-! ### A single job -/

/-- How far a crew of a single job has come. -/
inductive Crew.Lone (store : Store σ) (job : Job α) (start : σ) : Crew α → σ → Prop
  | waiting : Lone store job start ⟨[.waiting job], []⟩ start
  | working {rest : Job α} {state : σ} (h : rest.run store state = job.run store start) :
    Lone store job start ⟨[.working rest], []⟩ state
  | finished :
    Lone store job start ⟨[.finished], [⟨0, (job.run store start).1⟩]⟩ (job.run store start).2

namespace Crew.Lone

variable {job : Job α} {start state' : σ} {crew crew' : Crew α}

theorem step (h : Lone store job start crew state)
    (hstep : Step rules store (crew, state) (crew', state')) :
    Lone store job start crew' state' := by
  have hplace : ∀ {slot found : Slot α} {place : Nat}, [slot][place]? = some found →
      place = 0 ∧ found = slot := by
    intro slot found place hfound
    cases place with
    | zero => exact ⟨rfl, (Option.some.inj hfound).symm⟩
    | succ place => cases hfound
  cases hstep with
  | start hslot =>
    cases h with
    | waiting =>
      obtain ⟨rfl, hjob⟩ := hplace hslot
      obtain rfl := Slot.waiting.inj hjob
      exact .working rfl
    | working hrest => cases (hplace hslot).2
    | finished => cases (hplace hslot).2
  | call hslot =>
    cases h with
    | waiting => cases (hplace hslot).2
    | working hrest =>
      obtain ⟨rfl, hjob⟩ := hplace hslot
      obtain rfl := Slot.working.inj hjob
      exact .working hrest
    | finished => cases (hplace hslot).2
  | arrive hslot =>
    cases h with
    | waiting => cases (hplace hslot).2
    | working hrest =>
      obtain ⟨rfl, hjob⟩ := hplace hslot
      obtain rfl := Slot.working.inj hjob
      obtain ⟨rfl, rfl⟩ := Prod.mk.inj (hrest.symm)
      exact .finished
    | finished => cases (hplace hslot).2
  | giveUp hslot hmay =>
    cases h with
    | waiting => simp [mayGiveUp, hasFailed] at hmay
    | working hrest => cases (hplace hslot).2
    | finished => cases (hplace hslot).2

end Crew.Lone

/-- **A batch of one job is that job**, whatever the schedule is. -/
theorem dispatch_single (rules : Rules) (store : Store σ) (schedule : Schedule) (job : Job α)
    (state : σ) : dispatch rules store schedule [job] state =
      ((job.run store state).1.map fun value => [value], (job.run store state).2) := by
  have hend : Crew.Lone store job state (Crew.work rules store schedule [job] state).1
      (Crew.work rules store schedule [job] state).2 :=
    Crew.finish_induction .waiting (fun hcrew hstep => hcrew.step hstep) schedule
  have hover : ∀ slot, (Crew.work rules store schedule [job] state).1.slots[0]? = some slot →
      slot.isOver :=
    fun slot hslot => Crew.finish_over schedule (Crew.ofJobs [job]) state hslot
  rw [dispatch_eq]
  generalize Crew.work rules store schedule [job] state = last at hend hover ⊢
  obtain ⟨crew, after⟩ := last
  cases hend with
  | waiting => cases hover _ rfl
  | working hrest => cases hover _ rfl
  | finished =>
    show (collect 1 [⟨0, (job.run store state).1⟩], _) = _
    cases (job.run store state).1 <;> rfl

/-! ### The size of a buffer -/

section Chunk

variable {chunk : Chunk} {limit : UInt64} {count size : Nat} {error : AccessError}

theorem Chunk.toNat_byteCount (hsmall : chunk.Small) :
    chunk.byteCount.toUInt64.toNat = chunk.byteCount :=
  toNat_toUInt64 hsmall

/-- The check of a buffer of the shape of the chunk asks for the size of the chunk, and words
its fault as storing the whole chunk does. -/
theorem Chunk.checkBuffer_eq (hpos : 0 < chunk.shape.elementCount) (hfill : chunk.fill ≠ [])
    (hsmall : chunk.Small) (size : Nat) : checkBuffer size chunk.shape chunk.elementSize =
      if size = chunk.byteCount then .ok ()
      else .error (.bufferSize chunk.shape chunk.byteCount.toUInt64 size) := by
  have hsize := Chunk.elementSize_pos.mpr hfill
  have hwidth : chunk.elementSize.toUInt64.toNat = chunk.elementSize :=
    toNat_toUInt64 (Nat.lt_of_le_of_lt (Nat.le_mul_of_pos_left _ hpos) hsmall)
  have hcount : Shape.elementCount (chunk.shape ++ [chunk.elementSize.toUInt64]) =
      chunk.byteCount := by
    rw [Shape.elementCount_append, Shape.elementCount_cons, Shape.elementCount_nil, hwidth,
      Nat.mul_one, byteCount]
  have hchecked : Shape.checkedCount (chunk.shape ++ [chunk.elementSize.toUInt64]) =
      some chunk.byteCount.toUInt64 := by
    rw [Shape.checkedCount_eq_some (hcount ▸ Nat.mul_pos hpos hsize) (hcount ▸ hsmall), hcount]
  simp only [checkBuffer, hchecked, Option.map_some, Option.some.injEq, Option.getD_some,
    toNat_byteCount hsmall, eq_comm]

/-! ### The plan of a whole chunk -/

/-- The whole chunk in the whole of a buffer of its shape. -/
def ChunkPlan.ofChunk (chunk : Chunk) : ChunkPlan :=
  ⟨chunk, Box.whole chunk.shape, Box.whole chunk.shape⟩

theorem planBatch_single (entry : BatchEntry) (size : Nat) (shape : Shape) (limit : UInt64) :
    planBatch [entry] size shape limit =
      (entry.plan size shape limit).map fun plan => [plan] := by
  rw [planBatch, List.mapM_cons, List.mapM_nil]
  cases entry.plan size shape limit <;> rfl

/-- Planning a whole chunk makes the two checks of its size, and nothing else can fail. -/
theorem plan_ofChunk (chunk : Chunk) (size : Nat) (limit : UInt64) :
    (BatchEntry.ofChunk chunk).plan size chunk.shape limit =
      (chunk.checkedLength limit >>= fun _ => checkBuffer size chunk.shape chunk.elementSize).map
        fun _ => ChunkPlan.ofChunk chunk := by
  have hwhole : Box.ofSlices [] chunk.shape = .ok (Box.whole chunk.shape) := by
    simp [Box.ofSlices]
  rw [BatchEntry.plan]
  cases hcount : chunk.checkedLength limit with
  | error error => simp only [BatchEntry.ofChunk, hcount]; rfl
  | ok count =>
    cases hbuffer : checkBuffer size chunk.shape chunk.elementSize with
    | error error => simp only [BatchEntry.ofChunk, hcount, hbuffer]; rfl
    | ok _ =>
      simp only [BatchEntry.ofChunk, hcount, hbuffer, hwhole]
      show (if _ = _ then _ else _) = _
      rw [if_pos rfl]
      rfl

/-- A region that is the whole chunk is read as the chunk. -/
theorem read_ofChunk (hpos : 0 < chunk.shape.elementCount) (codec : Codec) (limit : UInt64) :
    (ChunkPlan.ofChunk chunk).read codec limit = readChunk codec limit chunk := by
  have hcovers : (ChunkPlan.ofChunk chunk).coversChunk := Box.covers_iff.mpr rfl
  rw [ChunkPlan.read, if_pos hcovers]
  exact if_neg (by simp [ChunkPlan.ofChunk, Box.vacant_whole hpos])

/-- And written as the chunk. -/
theorem write_ofChunk (hpos : 0 < chunk.shape.elementCount) (codec : Codec) (limit : UInt64)
    (storeEmpty : Bool) (data : Bytes) :
    (ChunkPlan.ofChunk chunk).write codec limit storeEmpty data =
      writeChunk codec storeEmpty chunk data := by
  have hcovers : (ChunkPlan.ofChunk chunk).coversChunk := Box.covers_iff.mpr rfl
  rw [ChunkPlan.write, if_pos hcovers]
  exact if_neg (by simp [ChunkPlan.ofChunk, Box.vacant_whole hpos])

end Chunk

/-! ### Whole chunks and batches -/

/-- A buffer after what was read has been put into it, if anything was read. -/
def Update.ofRead (buffer : Bytes) : Outcome Bytes → Update
  | .ok bytes => .unchanged bytes
  | .error error => .failed buffer error

/-- The outcomes of reading some chunks one after another, and the state that this leaves. -/
def Pipeline.retrieveEach (pipeline : Pipeline σ) :
    List Chunk → σ → List (Outcome Bytes) × σ
  | [], state => ([], state)
  | chunk :: chunks, state =>
    let (outcome, state) := pipeline.retrieveChunk chunk state
    let (outcomes, state) := pipeline.retrieveEach chunks state
    (outcome :: outcomes, state)

section Batch

variable {pipeline : Pipeline σ} {chunk : Chunk}

theorem runAll_readChunk (pipeline : Pipeline σ) (chunks : List Chunk) (state : σ) :
    Job.runAll pipeline.store (chunks.map (readChunk pipeline.codec pipeline.limit)) state =
      pipeline.retrieveEach chunks state := by
  induction chunks generalizing state with
  | nil => rfl
  | cons chunk chunks ih =>
    rw [List.map_cons, Job.runAll_cons, ih]
    rfl

/-- The two checks of the size of a whole chunk. -/
theorem plan_whole (pipeline : Pipeline σ) (chunk : Chunk) (buffer : Bytes) :
    pipeline.plan [.ofChunk chunk] chunk.shape buffer =
      (chunk.checkedLength pipeline.limit >>= fun _ =>
        checkBuffer buffer.length chunk.shape chunk.elementSize).map
          fun _ => [ChunkPlan.ofChunk chunk] := by
  rw [Pipeline.plan, planBatch_single, plan_ofChunk]
  cases chunk.checkedLength pipeline.limit >>= fun _ => _ <;> rfl

/-- **Storing a whole chunk is storing the batch of its entry.** -/
theorem storeChunks_ofChunk (hpos : 0 < chunk.shape.elementCount) (hsmall : chunk.Small)
    (rules : Rules) (schedule : Schedule) (decoded : Bytes) (state : σ) :
    pipeline.storeChunks rules schedule [.ofChunk chunk] chunk.shape decoded state =
      pipeline.storeChunk chunk decoded state := by
  have hplan := plan_whole pipeline chunk decoded
  rw [Pipeline.storeChunk]
  cases hcount : chunk.checkedLength pipeline.limit with
  | error error =>
    rw [hcount] at hplan
    rw [storeChunks_unprepared (prepare_unplanned hplan), storeChunkJob_refused hcount]
    rfl
  | ok count =>
    have hfill := Chunk.elementSize_pos.mp (Chunk.checkedLength_eq_ok hcount).1
    rw [storeChunkJob_sized hcount hsmall]
    have hcheck := Chunk.checkBuffer_eq hpos hfill hsmall decoded.length
    by_cases hlength : decoded.length = chunk.byteCount
    · rw [if_pos hlength] at hcheck
      rw [hcount, hcheck] at hplan
      have hextract := Box.extract_whole hlength (hlength ▸ hsmall)
      have hprepare : pipeline.prepare [.ofChunk chunk] chunk.shape decoded =
          .ok [(ChunkPlan.ofChunk chunk, decoded)] := by
        rw [Pipeline.prepare, hplan]
        show (gatherAll [ChunkPlan.ofChunk chunk] chunk.shape decoded >>= _) = _
        rw [gatherAll, List.mapM_cons, ChunkPlan.gather]
        simp only [ChunkPlan.ofChunk, hextract]
        rfl
      have hjobs : pipeline.writeJobs [(ChunkPlan.ofChunk chunk, decoded)] =
          [writeChunk pipeline.codec pipeline.config.storeEmptyChunks chunk decoded] := by
        rw [← write_ofChunk hpos pipeline.codec pipeline.limit]
        rfl
      rw [storeChunks_prepared hprepare, writeRegions_eq, hjobs, dispatch_single,
        if_neg (not_not_intro hlength)]
      generalize (writeChunk pipeline.codec pipeline.config.storeEmptyChunks chunk decoded).run
        pipeline.store state = ended
      obtain ⟨error | ⟨⟩, after⟩ := ended <;> rfl
    · rw [if_neg hlength] at hcheck
      rw [hcount, hcheck] at hplan
      rw [storeChunks_unprepared (prepare_unplanned hplan), if_pos hlength]
      rfl

/-- **Reading a whole chunk is reading the batch of its entry** into a buffer of its size. -/
theorem retrieveChunks_ofChunk (hpos : 0 < chunk.shape.elementCount) (hsmall : chunk.Small)
    (rules : Rules) (schedule : Schedule) {buffer : Bytes}
    (hbuffer : buffer.length = chunk.byteCount) (state : σ) :
    pipeline.retrieveChunks rules schedule [.ofChunk chunk] chunk.shape buffer state =
      (Update.ofRead buffer (pipeline.retrieveChunk chunk state).1,
        (pipeline.retrieveChunk chunk state).2) := by
  have hplan := plan_whole pipeline chunk buffer
  rw [Pipeline.retrieveChunk]
  cases hcount : chunk.checkedLength pipeline.limit with
  | error error =>
    rw [hcount] at hplan
    rw [retrieveChunks_unplanned hplan, readChunk, hcount]
    rfl
  | ok count =>
    have hfill := Chunk.elementSize_pos.mp (Chunk.checkedLength_eq_ok hcount).1
    rw [hcount, Chunk.checkBuffer_eq hpos hfill hsmall, if_pos hbuffer] at hplan
    have hread : pipeline.readRegions rules schedule [ChunkPlan.ofChunk chunk] state =
        dispatch rules pipeline.store schedule
          [readChunk pipeline.codec pipeline.limit chunk] state := by
      rw [← read_ofChunk hpos]
      rfl
    rw [dispatch_single] at hread
    rcases hrun : (readChunk pipeline.codec pipeline.limit chunk).run pipeline.store state with
      ⟨error | bytes, after⟩
    · rw [hrun] at hread
      rw [retrieveChunks_unread hplan hread]
      rfl
    · rw [hrun] at hread
      have hupdate := Box.update_whole (Chunk.elementSize_pos.mpr hfill) hbuffer (hbuffer ▸ hsmall)
        (Job.Gives.run (readChunk_length _ _ chunk) hrun)
      have hscatter : (ChunkPlan.ofChunk chunk).scatter chunk.shape bytes buffer =
          .unchanged bytes := hupdate
      rw [retrieveChunks_read hplan hread]
      show (scatterAll chunk.shape [(ChunkPlan.ofChunk chunk, bytes)] buffer, after) = _
      rw [scatterAll_cons_ok (congrArg Update.outcome hscatter), hscatter]
      rfl

end Batch

/-- **Whole chunks by themselves and as batches.** For a chunk that has elements and whose
size is a machine word, storing it is storing the batch of its entry from a buffer of its
shape, with the same result and the same state, whatever the data is; and reading it is
reading this batch into a buffer of its shape and size. If many chunks can be read one after
another, reading them in this order succeeds with the same bytes and the same state; where
reads are answered alike whatever was read before, so does reading them at the same time,
and it succeeds in no other case. -/
theorem whole_chunks_agree (pipeline : Pipeline σ) (rules : Rules) (schedule : Schedule) :
    (∀ chunk : Chunk, 0 < chunk.shape.elementCount → chunk.Small → ∀ decoded state,
      pipeline.storeChunks rules schedule [.ofChunk chunk] chunk.shape decoded state =
        pipeline.storeChunk chunk decoded state) ∧
    (∀ chunk : Chunk, 0 < chunk.shape.elementCount → chunk.Small →
      ∀ buffer, buffer.length = chunk.shape.elementCount * chunk.elementSize → ∀ state,
        pipeline.retrieveChunks rules schedule [.ofChunk chunk] chunk.shape buffer state =
          (Update.ofRead buffer (pipeline.retrieveChunk chunk state).1,
            (pipeline.retrieveChunk chunk state).2)) ∧
    (∀ (chunks : List Chunk) (state : σ) parts,
      (pipeline.retrieveEach chunks state).1 = parts.map .ok →
      pipeline.retrieveWholeChunks rules [] chunks state =
        (.ok parts, (pipeline.retrieveEach chunks state).2)) ∧
    ∀ (chunks : List Chunk) (state : σ),
      pipeline.store.Steady (fun call => call.isRead ∧ call.key ∈ chunks.map Chunk.key) state →
      ∀ parts, (pipeline.retrieveWholeChunks rules schedule chunks state).1 = .ok parts ↔
        (pipeline.retrieveEach chunks state).1 = parts.map .ok := by
  refine ⟨?_, ?_, ?_, ?_⟩
  · intro chunk hpos hsmall decoded state
    exact storeChunks_ofChunk hpos hsmall rules schedule decoded state
  · intro chunk hpos hsmall buffer hbuffer state
    exact retrieveChunks_ofChunk hpos hsmall rules schedule hbuffer state
  · intro chunks state parts hparts
    rw [← runAll_readChunk] at hparts ⊢
    exact dispatch_inOrder hparts rules
  · intro chunks state hsteady parts
    rw [← runAll_readChunk]
    refine hsteady.dispatch_ok_iff ?_ schedule parts
    intro job hjob
    obtain ⟨chunk, hchunk, rfl⟩ := List.mem_map.mp hjob
    refine Job.callsOnly_mono ?_ (readChunk_readsOnly pipeline.codec pipeline.limit chunk)
    intro call hcall
    exact ⟨hcall.2, hcall.1 ▸ List.mem_map_of_mem hchunk⟩

namespace Pair

/-- A chunk without axes. -/
def scalar : Chunk := ⟨"a", [], "uint8", [7]⟩

/-- A chunk of two elements of two bytes, and what is stored of it. -/
def duo : Chunk := ⟨"b", [2], "uint16", [0, 0]⟩

/-- A table with the stored chunk. -/
def holding : Table := { values := ⟨[("b", [0xEE, 1, 2, 3, 4])]⟩ }

/-- The two chunks by themselves and as batches, under a schedule for two. -/
theorem whole_chunks_agree_here :
    let pipeline := Pair.pipeline fun _ _ => false
    pipeline.storeChunks ⟨.drain, 2⟩ alternating [.ofChunk scalar] [] [5] holding =
        pipeline.storeChunk scalar [5] holding ∧
      (pipeline.storeChunk duo [5] holding).1 = .error (.bufferSize [2] 4 1) ∧
      (pipeline.retrieveChunks ⟨.abandon, 1⟩ [] [.ofChunk duo] [2] [0, 0, 0, 0] holding).1 =
        .unchanged [1, 2, 3, 4] ∧
      (pipeline.retrieveWholeChunks ⟨.drain, 2⟩ alternating [scalar, duo, scalar] holding).1 =
        .ok [[7], [1, 2, 3, 4], [7]] := by
  intro pipeline
  obtain ⟨hstore, hretrieve, -⟩ := whole_chunks_agree pipeline ⟨.abandon, 1⟩ []
  obtain ⟨hstoreTwo, -, -, hmany⟩ := whole_chunks_agree pipeline ⟨.drain, 2⟩ alternating
  have hsmall : ∀ chunk ∈ [scalar, duo], 0 < chunk.shape.elementCount ∧ chunk.Small := by
    simp [scalar, duo, Chunk.Small, Chunk.elementSize, UInt64.size]
  obtain ⟨hscalar, hscalarSmall⟩ := hsmall scalar (by simp)
  obtain ⟨hpos, hduoSmall⟩ := hsmall duo (by simp)
  refine ⟨hstoreTwo scalar hscalar hscalarSmall [5] holding, ?_, ?_, ?_⟩
  · rw [← hstore duo hpos hduoSmall [5] holding]
    rfl
  · have hread := hretrieve duo hpos hduoSmall [0, 0, 0, 0] rfl holding
    exact congrArg Prod.fst hread
  · refine (hmany [scalar, duo, scalar] holding ?_ _).mpr rfl
    exact Table.steady (fun _ _ => false) (fun call hcall => hcall.1) holding

end Pair

end ChunkedArray
