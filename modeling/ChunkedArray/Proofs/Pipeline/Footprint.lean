import ChunkedArray.Proofs.Pipeline.Sparse

/-!
# ChunkedArray.Proofs.Pipeline.Footprint

The calls that a batch makes of a store.

A store can be given a transcript of its calls and its answers to them
(`Store.transcribed`). Nothing is asked of the store here, so the transcript is all that is
known of it. The job of an entry makes no calls on other keys, and what the transcript says
of its own key is determined by the region of the entry (`ChunkPlan.read_noted`,
`ChunkPlan.write_noted`); where the keys of a batch are distinct, the calls of other jobs do
not get in between (`dispatch_transcribed`). So a batch that succeeds reads each chunk once
at most, and changes it once at most (`batches_call_once`).
-/

namespace ChunkedArray

open Job

variable {α σ : Type} {store : Store σ} {rules : Rules} {schedule : Schedule}

/-! ### Transcripts -/

/-- A call of a store and the answer to it. -/
structure Exchange where
  call : StoreCall
  answer : Outcome call.Answer

/-- The store with a transcript of its calls, the latest last. -/
def Store.transcribed (store : Store σ) : Store (σ × List Exchange) where
  answer call state :=
    let (answer, after) := store.answer call state.1
    (answer, after, state.2 ++ [⟨call, answer⟩])

theorem Store.transcribed_extends (store : Store σ) :
    store.transcribed.Extends Prod.fst store :=
  fun _ _ => rfl

/-- The pipeline over the store with a transcript. -/
def Pipeline.transcribed (pipeline : Pipeline σ) : Pipeline (σ × List Exchange) :=
  ⟨pipeline.store.transcribed, pipeline.codec, pipeline.config⟩

/-- What a transcript says of a key. -/
def about (key : String) (exchanges : List Exchange) : List Exchange :=
  exchanges.filter fun exchange => exchange.call.key = key

theorem about_append_own (exchange : Exchange) (exchanges : List Exchange) :
    about exchange.call.key (exchanges ++ [exchange]) =
      about exchange.call.key exchanges ++ [exchange] := by
  simp [about, List.filter_append]

theorem about_append_other {key : String} {exchange : Exchange} (h : exchange.call.key ≠ key)
    (exchanges : List Exchange) : about key (exchanges ++ [exchange]) = about key exchanges := by
  simp [about, List.filter_append, h]

/-- Any answer may be given to a call, and is noted with it. -/
def noted : Answering (List Exchange) :=
  fun call exchanges answer after => after = exchanges ++ [⟨call, answer⟩]

/-- The division by distinct keys, in which the share of a place is what the transcript says
of its key. -/
def Division.transcript (store : Store σ) (keys : List String) :
    Division store.transcribed (List Exchange) where
  share place state := keys[place]?.elim [] fun key => about key state.2
  may place call := keys[place]? = some call.key ∧
    ∀ other, other ≠ place → keys[other]? ≠ some call.key
  answers := noted
  own := by
    intro place call hmay state
    simp only [hmay.1, Option.elim_some]
    exact about_append_own ⟨call, (store.answer call state.1).1⟩ state.2
  others := by
    intro place other call hmay hne state
    cases hother : keys[other]? with
    | none => rfl
    | some key =>
      have hkey : call.key ≠ key := fun hsame => hmay.2 other hne (hsame ▸ hother)
      exact about_append_other hkey state.2

theorem Division.share_transcript {keys : List String} {place : Nat} {key : String}
    (h : keys[place]? = some key) (state : σ × List Exchange) :
    (transcript store keys).share place state = about key state.2 := by
  simp only [transcript, h, Option.elim_some]

/-- **In a batch that succeeds, each job has its own part of the transcript**: what it makes
of an empty one, whatever the answers to its calls are. -/
theorem dispatch_transcribed {ι : Type} {items : List ι} {key : ι → String} {job : ι → Job α}
    {post : ι → List Exchange → Prop} (hkeys : (items.map key).Nodup)
    (hown : ∀ item, (job item).CallsOnly (·.key = key item))
    (hpost : ∀ item ∈ items, (job item).Ensures noted
      (fun outcome exchanges => ∀ value, outcome = .ok value → post item exchanges) [])
    {values : List α} {state : σ} {final : σ × List Exchange}
    (h : dispatch rules store.transcribed schedule (items.map job) (state, []) =
      (.ok values, final)) :
    ∀ item ∈ items, post item (about (key item) final.2) := by
  have hwork : Job.WorkOn (items.map key) (items.map job) := Job.callsAt_map hown
  have hjobs : ∀ (place : Nat) job', (items.map job)[place]? = some job' →
      (Division.transcript store (items.map key)).Admits (fun place outcome exchanges =>
        ∀ item value, items[place]? = some item → outcome = .ok value → post item exchanges)
        (state, []) place job' := by
    intro place job' hjob
    obtain ⟨own, hplace, hcalls⟩ := hwork place job' hjob
    refine ⟨callsOnly_mono ?_ hcalls, ?_⟩
    · intro call hcall
      have hown : (items.map key)[place]? = some call.key := hcall ▸ hplace
      exact ⟨hown, fun other hne hother => hne (place_unique hkeys hown hother)⟩
    · rw [Division.share_transcript hplace]
      rw [List.getElem?_map] at hjob
      obtain ⟨item, hitem, rfl⟩ := Option.map_eq_some_iff.mp hjob
      refine ensures_mono ?_ (hpost item (List.mem_of_getElem? hitem))
      intro outcome exchanges hdone other value hother hok
      obtain rfl : item = other := Option.some.inj (hitem.symm.trans hother)
      exact hdone value hok
  obtain ⟨hlength, hposts⟩ := Division.dispatch_ok hjobs h
  intro item hmem
  obtain ⟨place, hitem⟩ := List.mem_iff_getElem?.mp hmem
  have hplace : (items.map key)[place]? = some (key item) := by
    rw [List.getElem?_map, hitem, Option.map_some]
  have hlt : place < values.length := by
    rw [hlength, List.length_map]
    exact (List.getElem?_eq_some_iff.mp hitem).1
  rw [← Division.share_transcript hplace]
  exact hposts place hlt item _ hitem rfl

/-! ### The transcript of one job -/

/-- The exchange that stores a whole chunk: it is removed if it need not be kept and all of
its elements are the fill value, else its encoded form is put. -/
inductive StoresWhole (codec : Codec) (storeEmpty : Bool) (chunk : Chunk) (whole : Bytes) :
    Exchange → Prop
  | erase (hempty : storeEmpty = false) (hfill : chunk.AllFill whole) :
    StoresWhole codec storeEmpty chunk whole ⟨.erase chunk.key, .ok ()⟩
  | set (hkept : storeEmpty = false → ¬ chunk.AllFill whole) {encoded : Bytes}
    (hencode : codec.encode chunk whole = .ok encoded) :
    StoresWhole codec storeEmpty chunk whole ⟨.set chunk.key encoded, .ok ()⟩

section Job

variable {codec : Codec} {limit : UInt64} {storeEmpty : Bool} {chunk : Chunk} {plan : ChunkPlan}
  {data : Bytes}

/-- A whole chunk is read by one call, and comes from the answer to it. -/
theorem readChunk_noted (codec : Codec) (limit : UInt64) (chunk : Chunk)
    (exchanges : List Exchange) : (readChunk codec limit chunk).Ensures noted
      (fun outcome after => ∀ decoded, outcome = .ok decoded → ∃ stored,
        ((readChunk codec limit chunk).run Cell.store stored).1 = .ok decoded ∧
          after = exchanges ++ [⟨.get chunk.key, .ok stored⟩]) exchanges := by
  refine ensures_bind ?_
  rw [ensures_ofOutcome]
  cases hcount : chunk.checkedLength limit with
  | error error => exact fun decoded => nofun
  | ok count =>
    refine ensures_bind ((ensures_ofCall _ _ _ _).mpr ?_)
    intro answer after hafter
    rcases answer with error | _ | encoded
    · exact fun decoded => nofun
    · intro decoded h
      obtain rfl := Except.ok.inj h
      refine ⟨none, ?_, hafter⟩
      rw [readChunk, hcount]
      rfl
    · refine ensures_bind ?_
      rw [ensures_ofOutcome]
      cases hdecode : codec.decode chunk encoded with
      | error error => exact fun decoded => nofun
      | ok bytes =>
        intro decoded h
        refine ⟨some encoded, ?_, hafter⟩
        rw [readChunk, hcount]
        show ((Job.ofOutcome (codec.decode chunk encoded) >>= fun decoded => _).run
          Cell.store (some encoded)).1 = _
        rw [hdecode]
        exact h

/-- A whole chunk is written by one call. -/
theorem writeChunk_noted (codec : Codec) (storeEmpty : Bool) (chunk : Chunk) (whole : Bytes)
    (exchanges : List Exchange) : (writeChunk codec storeEmpty chunk whole).Ensures noted
      (fun outcome after => outcome = .ok () → ∃ last,
        StoresWhole codec storeEmpty chunk whole last ∧ after = exchanges ++ [last])
      exchanges := by
  rw [writeChunk]
  by_cases hempty : storeEmpty = false ∧ chunk.AllFill whole
  · have hholds := Chunk.holdsOnlyFill_iff.mpr hempty.2
    rw [if_pos (by simp [hempty.1, hholds])]
    refine (ensures_ofCall _ _ _ _).mpr ?_
    intro answer after hafter hok
    exact ⟨_, .erase hempty.1 hempty.2, by rw [hafter, hok]⟩
  · have hkept : storeEmpty = false → ¬ chunk.AllFill whole :=
      fun hfalse hfill => hempty ⟨hfalse, hfill⟩
    have hholds : ¬ (!storeEmpty && chunk.holdsOnlyFill whole) := by
      simpa [Chunk.holdsOnlyFill_iff] using hkept
    rw [if_neg hholds]
    refine ensures_bind ?_
    rw [ensures_ofOutcome]
    cases hencode : codec.encode chunk whole with
    | error error => exact nofun
    | ok encoded =>
      refine (ensures_ofCall _ _ _ _).mpr ?_
      intro answer after hafter hok
      exact ⟨_, .set hkept hencode, by rw [hafter, hok]⟩

/-- The exchanges of a region that is read: one `get` of the chunk, if the region has
elements. -/
inductive ChunkPlan.ReadsBy (plan : ChunkPlan) : List Exchange → Prop
  | empty (hcount : plan.chunkBox.elementCount = 0) : ReadsBy plan []
  | read (hcount : plan.chunkBox.elementCount ≠ 0) (stored : Cell) :
    ReadsBy plan [⟨.get plan.chunk.key, .ok stored⟩]

/-- The exchanges of a region that is written: the chunk is read if the region has some but
not all of its elements, and then stored as a whole. -/
inductive ChunkPlan.WritesBy (codec : Codec) (limit : UInt64) (storeEmpty : Bool)
    (plan : ChunkPlan) (data : Bytes) : List Exchange → Prop
  | empty (hcount : plan.chunkBox.elementCount = 0) : WritesBy codec limit storeEmpty plan data []
  | whole (hcount : plan.chunkBox.elementCount ≠ 0)
    (hall : plan.chunkBox.elementCount = plan.chunk.shape.elementCount)
    {last : Exchange} (hlast : StoresWhole codec storeEmpty plan.chunk data last) :
    WritesBy codec limit storeEmpty plan data [last]
  | part (hcount : plan.chunkBox.elementCount ≠ 0)
    (hpart : plan.chunkBox.elementCount ≠ plan.chunk.shape.elementCount)
    {stored : Cell} {whole : Bytes} (hwhole : plan.merged codec limit data stored = .ok whole)
    {last : Exchange} (hlast : StoresWhole codec storeEmpty plan.chunk whole last) :
    WritesBy codec limit storeEmpty plan data [⟨.get plan.chunk.key, .ok stored⟩, last]

/-- A codec that decodes no parts makes no calls of its own. -/
theorem Codec.readsOwn_of_none (hcodec : ∀ chunk box, codec.partialDecode chunk box = pure none) :
    codec.ReadsOwn := by
  intro chunk box
  rw [hcodec]
  trivial

/-- A region is read by one call, or by none if it is empty. -/
theorem ChunkPlan.read_noted (hcodec : ∀ chunk box, codec.partialDecode chunk box = pure none)
    (limit : UInt64) (plan : ChunkPlan) : (plan.read codec limit).Ensures noted
      (fun outcome after => ∀ region, outcome = .ok region → plan.ReadsBy after) [] := by
  rw [read]
  split
  next hvacant => exact fun _ _ => .empty (Box.vacant_iff.mp hvacant)
  next hvacant =>
    have hcount : plan.chunkBox.elementCount ≠ 0 := fun hzero => hvacant (Box.vacant_iff.mpr hzero)
    have hchunk : (readChunk codec limit plan.chunk).Ensures noted
        (fun outcome after => ∀ decoded, outcome = .ok decoded → plan.ReadsBy after) [] := by
      refine ensures_mono ?_ (readChunk_noted codec limit plan.chunk [])
      intro outcome after h decoded hok
      obtain ⟨stored, -, rfl⟩ := h decoded hok
      exact .read hcount stored
    split
    next => exact hchunk
    next =>
      refine ensures_bind ?_
      rw [ensures_ofOutcome]
      cases plan.chunk.checkedLength limit with
      | error error => exact fun region => nofun
      | ok count =>
        refine ensures_bind ?_
        rw [hcodec]
        -- the codec gives no part, so the whole chunk is read
        refine ensures_bind (ensures_mono ?_ hchunk)
        intro outcome after h
        cases outcome with
        | error error => exact fun region => nofun
        | ok decoded => exact fun region _ => h decoded rfl

/-- A region is written by one call, or by none if it is empty; the chunk is read before
where the region is a part of it. -/
theorem ChunkPlan.write_noted (hfits : plan.chunkBox.fits plan.chunk.shape) (codec : Codec)
    (limit : UInt64) (storeEmpty : Bool) (data : Bytes) :
    (plan.write codec limit storeEmpty data).Ensures noted
      (fun outcome after => outcome = .ok () → plan.WritesBy codec limit storeEmpty data after)
      [] := by
  rw [write]
  split
  next hvacant => exact fun _ => .empty (Box.vacant_iff.mp hvacant)
  next hvacant =>
    have hcount : plan.chunkBox.elementCount ≠ 0 := fun hzero => hvacant (Box.vacant_iff.mpr hzero)
    have hall := Box.covers_iff_elementCount hfits hcount
    split
    next hcovers =>
      refine ensures_mono ?_ (writeChunk_noted codec storeEmpty plan.chunk data [])
      intro outcome after h hok
      obtain ⟨last, hlast, rfl⟩ := h hok
      exact .whole hcount (hall.mp hcovers) hlast
    next hcovers =>
      refine ensures_bind (ensures_mono ?_ (readChunk_noted codec limit plan.chunk []))
      intro outcome after h
      cases outcome with
      | error error => exact nofun
      | ok existing =>
        obtain ⟨stored, hread, rfl⟩ := h existing rfl
        have hwhole : plan.merged codec limit data stored = .ok (plan.chunkBox.update
            plan.chunk.shape plan.chunk.elementSize data existing).buffer := by
          rw [merged, if_neg hcovers, hread]
          rfl
        refine ensures_bind ?_
        rw [ensures_ofOutcome]
        cases (plan.chunkBox.update plan.chunk.shape plan.chunk.elementSize data
            existing).outcome with
        | error error => exact nofun
        | ok _ =>
          refine ensures_mono ?_ (writeChunk_noted codec storeEmpty plan.chunk _ _)
          intro outcome after h hok
          obtain ⟨last, hlast, rfl⟩ := h hok
          exact .part hcount (fun heq => hcovers (hall.mpr heq)) hwhole hlast

end Job

/-! ### The transcript of a batch -/

/-- Every call in the transcript is one that may be made. -/
theorem Store.transcribed_preserves (store : Store σ) (may : StoreCall → Prop) :
    store.transcribed.Preserves may fun state => ∀ exchange ∈ state.2, may exchange.call := by
  intro call state hmay hbefore exchange hexchange
  rcases List.mem_append.mp hexchange with hold | hnew
  · exact hbefore exchange hold
  · rw [List.mem_singleton.mp hnew]
    exact hmay

section Batch

variable {pipeline : Pipeline σ} {batch : List BatchEntry} {shape : Shape} {buffer : Bytes}
  {state : σ}

/-- The transcript of a request has no other calls than those that it may make. -/
theorem Pipeline.MakesOnly.transcribed {may : StoreCall → Prop} {request : Request}
    (h : pipeline.MakesOnly may request) (state : σ) :
    ∀ exchange ∈ (pipeline.transcribed.perform request (state, [])).2.2, may exchange.call := by
  have hmakes : pipeline.transcribed.MakesOnly may request := by cases request <;> exact h
  refine (pipeline.store.transcribed_preserves may).perform hmakes ?_
  intro exchange hexchange
  cases hexchange

/-- A batch of reads only reads, and only the keys that it names. -/
theorem retrieveChunks_makesOnly (hcodec : pipeline.codec.ReadsOwn) (rules : Rules)
    (schedule : Schedule) (batch : List BatchEntry) (shape : Shape) (buffer : Bytes) :
    pipeline.MakesOnly (fun call => call.key ∈ (batch.map fun entry => entry.chunk.key) ∧
      call.isRead) (.retrieveChunks rules schedule batch shape buffer) := by
  intro plans hplans job hjob
  obtain ⟨plan, hplan, rfl⟩ := List.mem_map.mp hjob
  obtain ⟨entry, hentry, hplanned⟩ := Outcome.exists_of_mem_mapM hplans hplan
  have hchunk := (BatchEntry.plan_eq_ok hplanned).1.chunk_eq
  refine callsOnly_mono ?_ (plan.read_readsOnly hcodec pipeline.limit)
  intro call hcall
  refine ⟨?_, hcall.2⟩
  rw [hcall.1, hchunk]
  exact List.mem_map_of_mem hentry

/-- A batch of writes makes calls on the keys that it names. -/
theorem storeChunks_makesOnly (pipeline : Pipeline σ) (rules : Rules) (schedule : Schedule)
    (batch : List BatchEntry) (shape : Shape) (buffer : Bytes) :
    pipeline.MakesOnly (fun call => call.key ∈ batch.map fun entry => entry.chunk.key)
      (.storeChunks rules schedule batch shape buffer) := by
  intro regions hregions job hjob
  obtain ⟨region, hregion, rfl⟩ := List.mem_map.mp hjob
  refine callsOnly_mono ?_ (region.1.write_callsOnly _ _ _ _)
  intro call hkey
  rw [hkey, ← keys_of_prepare hregions]
  exact List.mem_map_of_mem hregion

/-- In a batch of reads that succeeds, each entry makes the calls of its region. -/
theorem retrieveChunks_noted
    (hcodec : ∀ chunk box, pipeline.codec.partialDecode chunk box = pure none)
    (hkeys : (batch.map fun entry => entry.chunk.key).Nodup) {final : Update × σ × List Exchange}
    (hfinal : pipeline.transcribed.retrieveChunks rules schedule batch shape buffer (state, []) =
      final) (h : final.1.outcome = .ok ()) :
    ∀ entry ∈ batch, ∃ plan, entry.PlannedAs shape plan ∧
      plan.ReadsBy (about entry.chunk.key final.2.2) := by
  subst hfinal
  obtain ⟨plans, regions, after, hplans, hread, hended⟩ := retrieveChunks_eq_ok h
  have hplanned := planBatch_eq_ok hplans
  have hnames : (plans.map fun plan => plan.chunk.key) = batch.map fun entry => entry.chunk.key :=
    map_eq_of_forall₂ hplanned fun _ _ hentry => congrArg Chunk.key hentry.1.chunk_eq
  have hnoted := dispatch_transcribed (hnames.symm ▸ hkeys)
    (fun plan => callsOnly_mono (fun _ hcall => hcall.1)
      (ChunkPlan.read_readsOnly (Codec.readsOwn_of_none hcodec) pipeline.limit plan))
    (fun plan _ => ensures_mono (fun _ _ h => h) (plan.read_noted hcodec pipeline.limit)) hread
  intro entry hentry
  obtain ⟨place, hplace⟩ := List.mem_iff_getElem?.mp hentry
  obtain ⟨plan, hplan, hentry, -⟩ := exists_of_forall₂ hplanned hplace
  refine ⟨plan, hentry, ?_⟩
  rw [hended, ← hentry.chunk_eq]
  exact hnoted plan (List.mem_of_getElem? hplan)

/-- So it does in a batch of writes. -/
theorem storeChunks_noted (hkeys : (batch.map fun entry => entry.chunk.key).Nodup)
    {final : Outcome Unit × σ × List Exchange}
    (hfinal : pipeline.transcribed.storeChunks rules schedule batch shape buffer (state, []) =
      final) (h : final.1 = .ok ()) :
    ∀ entry ∈ batch, ∃ plan data, entry.PlannedAs shape plan ∧
      plan.gather shape buffer = .ok data ∧
      plan.WritesBy pipeline.codec pipeline.limit pipeline.config.storeEmptyChunks data
        (about entry.chunk.key final.2.2) := by
  obtain ⟨regions, results, hregions, hwrite⟩ :=
    storeChunks_eq_ok (hfinal.trans (Prod.ext h rfl))
  have hprepared := prepare_eq_ok hregions
  have hkeys' : (regions.map fun region => region.1.chunk.key).Nodup :=
    (keys_of_prepare hregions).symm ▸ hkeys
  have hfits : ∀ region ∈ regions, region.1.chunkBox.fits region.1.chunk.shape := by
    intro region hregion
    obtain ⟨place, hplace⟩ := List.mem_iff_getElem?.mp hregion
    obtain ⟨entry, -, ⟨-, hsound⟩, -⟩ := exists_of_forall₂ hprepared.flip hplace
    exact hsound.chunkFits
  have hnoted : ∀ region ∈ regions, region.1.WritesBy pipeline.codec pipeline.limit
      pipeline.config.storeEmptyChunks region.2 (about region.1.chunk.key final.2.2) :=
    dispatch_transcribed hkeys' (fun region => region.1.write_callsOnly _ _ _ _)
      (fun region hregion => ensures_mono (fun _ _ h _ hok => h hok)
        (ChunkPlan.write_noted (hfits region hregion) _ _ _ _)) hwrite
  intro entry hentry
  obtain ⟨place, hplace⟩ := List.mem_iff_getElem?.mp hentry
  obtain ⟨region, hregion, ⟨hplanned, -⟩, hgather⟩ := exists_of_forall₂ hprepared hplace
  refine ⟨region.1, region.2, hplanned, hgather, ?_⟩
  rw [← hplanned.chunk_eq]
  exact hnoted region (List.mem_of_getElem? hregion)

end Batch

/-- **Batches make no call that they need not make.** A batch with distinct keys is carried
out on a store that keeps a transcript, which does not change what it does. Reading a batch
only reads, and neither reading nor writing makes a call on a key that the batch does not
name. If it succeeds, the transcript says of the key of each entry what its region asks for,
in this order: reading is one `get`, and nothing for an empty region; writing is nothing for
an empty region, else a `get` if the region is not all of its chunk, and then one `erase` or
`set` of the chunk as a whole. -/
theorem batches_call_once {pipeline : Pipeline σ}
    (hcodec : ∀ chunk box, pipeline.codec.partialDecode chunk box = pure none) (rules : Rules)
    (schedule : Schedule) {batch : List BatchEntry}
    (hkeys : (batch.map fun entry => entry.chunk.key).Nodup) (shape : Shape) (buffer : Bytes)
    (state : σ) :
    let read := pipeline.transcribed.retrieveChunks rules schedule batch shape buffer (state, [])
    let written := pipeline.transcribed.storeChunks rules schedule batch shape buffer (state, [])
    let keys := batch.map fun entry => entry.chunk.key
    pipeline.retrieveChunks rules schedule batch shape buffer state = (read.1, read.2.1) ∧
    pipeline.storeChunks rules schedule batch shape buffer state = (written.1, written.2.1) ∧
    (∀ exchange ∈ read.2.2, exchange.call.key ∈ keys ∧ exchange.call.isRead) ∧
    (∀ exchange ∈ written.2.2, exchange.call.key ∈ keys) ∧
    (read.1.outcome = .ok () → ∀ entry ∈ batch, ∃ plan, entry.PlannedAs shape plan ∧
      plan.ReadsBy (about entry.chunk.key read.2.2)) ∧
    (written.1 = .ok () → ∀ entry ∈ batch, ∃ plan data, entry.PlannedAs shape plan ∧
      plan.gather shape buffer = .ok data ∧
      plan.WritesBy pipeline.codec pipeline.limit pipeline.config.storeEmptyChunks data
        (about entry.chunk.key written.2.2)) := by
  intro read written keys
  have hextends := pipeline.store.transcribed_extends
  refine ⟨?_, ?_, ?_, ?_, ?_, ?_⟩
  · exact hextends.retrieveChunks pipeline.codec pipeline.config schedule (state, [])
  · exact hextends.storeChunks pipeline.codec pipeline.config schedule (state, [])
  · have hreads := Codec.readsOwn_of_none hcodec
    exact (retrieveChunks_makesOnly hreads rules schedule batch shape buffer).transcribed state
  · exact (storeChunks_makesOnly pipeline rules schedule batch shape buffer).transcribed state
  · exact retrieveChunks_noted hcodec hkeys rfl
  · exact storeChunks_noted hkeys rfl

namespace Pair

/-- A pipeline that keeps no empty chunks, over a table that refuses no call. -/
def thrifty : Pipeline Table :=
  Table.pipeline (fun _ _ => false) (Tagged.codec none) { storeEmptyChunks := false }

/-- The end of a batch of writes in the pipeline with a transcript. -/
def thriftyWrites : Outcome Unit × Table × List Exchange :=
  thrifty.transcribed.storeChunks ⟨.drain, 2⟩ alternating batch [3] [9, 2, 3] ({}, [])

/-- The part of a chunk takes two calls, of which the last one removes the chunk; the call for
the whole chunk comes between them. -/
theorem called_once :
    thriftyWrites.1 = .ok () ∧
    thriftyWrites.2.2.map Exchange.call =
      [.get "a", .set "b" [0xEE, 2, 3], .erase "a"] ∧
    ∀ entry ∈ batch, ∃ plan data, entry.PlannedAs [3] plan ∧
      plan.gather [3] [9, 2, 3] = .ok data ∧
      plan.WritesBy thrifty.codec thrifty.limit false data
        (about entry.chunk.key thriftyWrites.2.2) := by
  have hcodec : ∀ chunk box, thrifty.codec.partialDecode chunk box = pure none := fun _ _ => rfl
  have hok : thriftyWrites.1 = .ok () := rfl
  obtain ⟨-, -, -, -, -, hwritten⟩ :=
    batches_call_once hcodec ⟨.drain, 2⟩ alternating keys_nodup [3] [9, 2, 3] {}
  exact ⟨hok, rfl, hwritten hok⟩

end Pair

end ChunkedArray
