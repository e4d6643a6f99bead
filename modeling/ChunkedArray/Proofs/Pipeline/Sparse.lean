import ChunkedArray.Proofs.Grid.Entry
import ChunkedArray.Proofs.Pipeline.Failure
import ChunkedArray.Proofs.Pipeline.Moments

/-!
# ChunkedArray.Proofs.Pipeline.Sparse

Stores without chunks that hold nothing but the fill value.

With empty chunks not kept, a write puts a value under its key only if some element of the
chunk is not the fill value, and removes the key otherwise (`ChunkPlan.write_stored`). So no
call that is ever made puts a chunk of fill values into the store (`write_maySet`), and a
store that begins without one has none at any moment, whichever calls fail and in whatever
order they are made (`sparse_preserved`).
-/

namespace ChunkedArray

open Job

variable {σ : Type} {codec : Codec} {limit : UInt64} {chunk : Chunk} {plan : ChunkPlan}
  {decoded data : Bytes} {cell after : Cell} {descriptor : String → Chunk}

/-! ### Chunks of fill values -/

/-- Every element of the decoded bytes is the fill value. -/
def Chunk.AllFill (chunk : Chunk) (decoded : Bytes) : Prop :=
  ∀ index, (index + 1) * chunk.elementSize ≤ decoded.length →
    decoded.element chunk.elementSize index = chunk.fill

theorem Chunk.holdsOnlyFill_iff : chunk.holdsOnlyFill decoded ↔ chunk.AllFill decoded := by
  rw [holdsOnlyFill, Bytes.pieces, Bytes.takePieces_eq_elements, List.all_map, List.all_eq_true]
  simp only [List.mem_range, Function.comp, beq_iff_eq]
  constructor
  · intro h index hindex
    rcases Nat.eq_zero_or_pos chunk.elementSize with hzero | hpos
    · -- there is only one element of no bytes
      rw [hzero, Bytes.element, List.take_zero, List.length_eq_zero_iff.mp hzero]
    · exact h index ((Nat.le_div_iff_mul_le hpos).mpr hindex)
  · intro h index hindex
    exact h index (Nat.mul_le_of_le_div _ _ _ hindex)

/-! ### Values that may be put -/

/-- The codec gives back what it has encoded of the chunk. -/
def Codec.Inverts (codec : Codec) (chunk : Chunk) : Prop :=
  ∀ decoded encoded, codec.encode chunk decoded = .ok encoded →
    codec.decode chunk encoded = .ok decoded

/-- The value decodes to elements of the chunk of which one is not the fill value. -/
def Codec.Dense (codec : Codec) (chunk : Chunk) (encoded : Bytes) : Prop :=
  ∃ decoded, codec.decode chunk encoded = .ok decoded ∧ ¬ chunk.AllFill decoded

/-- No key holds a chunk of fill values. -/
def Codec.Sparse (codec : Codec) (descriptor : String → Chunk) (value : String → Cell) : Prop :=
  ∀ key encoded, value key = some encoded → codec.Dense (descriptor key) encoded

/-- The call does not put a chunk of fill values under its key. -/
def Codec.MaySet (codec : Codec) (descriptor : String → Chunk) (call : StoreCall) : Prop :=
  ∀ key encoded, call = .set key encoded → codec.Dense (descriptor key) encoded

theorem Codec.maySet_of_isRead {call : StoreCall} (h : call.isRead) :
    codec.MaySet descriptor call := by
  rintro key encoded rfl
  cases h

/-- Whether a call succeeds or fails, it leaves no chunk of fill values if it puts none. -/
theorem sparse_preserved {store : Store σ} {value : σ → String → Cell}
    (hmap : store.IsMap value) (codec : Codec) (descriptor : String → Chunk) :
    store.Preserves (codec.MaySet descriptor)
      fun state => codec.Sparse descriptor (value state) := by
  intro call state hmay hsparse key encoded hencoded
  by_cases hkey : key = call.key
  · subst hkey
    rcases hmap.own call state with hanswer | ⟨-, hsame⟩
    · by_cases hread : call.isRead
      · have hsame := Cell.answer_read hread (value state call.key)
        rw [hanswer] at hsame
        exact hsparse _ _ (hsame ▸ hencoded)
      · have hleft := congrArg Prod.snd hanswer
        rw [hencoded] at hleft
        cases call with
        | get key | getPartial key ranges => exact absurd rfl hread
        | set key put =>
          obtain rfl : put = encoded := Option.some.inj hleft
          exact hmay key put rfl
        | erase key => cases hleft
    · exact hsparse _ _ (hsame ▸ hencoded)
  · rw [hmap.others call state key hkey] at hencoded
    exact hsparse key encoded hencoded

/-! ### The calls of writes -/

section Calls

variable (hcodec : ∀ key, codec.Inverts (descriptor key))

include hcodec

theorem writeChunk_maySet (hchunk : chunk = descriptor chunk.key) (decoded : Bytes) :
    (writeChunk codec false chunk decoded).CallsOnly (codec.MaySet descriptor) := by
  unfold writeChunk
  split
  next => exact (callsOnly_ofCall _ _).mpr (fun _ _ => nofun)
  next hfill =>
    have hdense : ¬ chunk.AllFill decoded := by
      rw [← Chunk.holdsOnlyFill_iff]
      simpa using hfill
    show (Job.bind (ofOutcome (codec.encode chunk decoded)) _).CallsOnly _
    cases hencode : codec.encode chunk decoded with
    | error error => trivial
    | ok encoded =>
      refine (callsOnly_ofCall _ _).mpr ?_
      rintro key encoded' ⟨⟩
      have hdecode := hcodec chunk.key decoded encoded
      rw [← hchunk] at hdecode ⊢
      exact ⟨decoded, hdecode hencode, hdense⟩

/-- **No write puts a chunk of fill values**, whatever the answers to its calls are. -/
theorem write_maySet (hchunk : plan.chunk = descriptor plan.chunk.key) (limit : UInt64)
    (data : Bytes) : (plan.write codec limit false data).CallsOnly (codec.MaySet descriptor) :=
  ChunkPlan.write_callsOnly_of (fun _ hcall => Codec.maySet_of_isRead hcall.2)
    (writeChunk_maySet hcodec hchunk) limit data

end Calls

section Requests

variable {pipeline : Pipeline σ} (hconfig : pipeline.config.storeEmptyChunks = false)
  (hcodec : ∀ key, pipeline.codec.Inverts (descriptor key))

include hconfig hcodec

theorem storeChunkJob_maySet (hchunk : chunk = descriptor chunk.key) (decoded : Bytes) :
    (pipeline.storeChunkJob chunk decoded).CallsOnly (pipeline.codec.MaySet descriptor) := by
  refine storeChunkJob_callsOnly_of ?_
  rw [hconfig]
  exact writeChunk_maySet hcodec hchunk decoded

/-- The request stores, and takes each chunk as it is described for its key. -/
def Request.Stores (descriptor : String → Chunk) : Request → Prop
  | storeChunk chunk _ => chunk = descriptor chunk.key
  | storeChunks _ _ batch _ _ => ∀ entry ∈ batch, entry.chunk = descriptor entry.chunk.key
  | retrieveChunk _ | retrieveWholeChunks .. | retrieveChunks .. => False

theorem makesOnly_maySet {request : Request} (hrequest : request.Stores descriptor) :
    pipeline.MakesOnly (pipeline.codec.MaySet descriptor) request := by
  cases request with
  | storeChunk chunk decoded => exact storeChunkJob_maySet hconfig hcodec hrequest decoded
  | storeChunks rules schedule batch shape buffer =>
    intro regions hregions job hjob
    obtain ⟨region, hregion, rfl⟩ := List.mem_map.mp hjob
    -- the chunk of the region is the chunk of an entry
    have hchunks : (regions.map fun region => region.1.chunk) = batch.map BatchEntry.chunk :=
      map_eq_of_forall₂ (prepare_eq_ok hregions) fun _ _ hentry => hentry.1.1.chunk_eq
    have hmem : region.1.chunk ∈ batch.map BatchEntry.chunk := by
      rw [← hchunks]
      exact List.mem_map_of_mem hregion
    obtain ⟨entry, hentry, hchunk⟩ := List.mem_map.mp hmem
    have hdescribed := hrequest entry hentry
    rw [hchunk] at hdescribed
    rw [Pipeline.writeJob, hconfig]
    exact write_maySet hcodec hdescribed _ _
  | retrieveChunk chunk => exact hrequest.elim
  | retrieveWholeChunks rules schedule chunks => exact hrequest.elim
  | retrieveChunks rules schedule batch shape buffer => exact hrequest.elim

end Requests

/-! ### What a write leaves -/

/-- The bytes of the whole chunk that the write of a region makes of what is stored. -/
def ChunkPlan.merged (codec : Codec) (limit : UInt64) (plan : ChunkPlan) (data : Bytes)
    (cell : Cell) : Outcome Bytes :=
  if plan.coversChunk then .ok data
  else ((readChunk codec limit plan.chunk).run Cell.store cell).1.map fun existing =>
    (plan.chunkBox.update plan.chunk.shape plan.chunk.elementSize data existing).buffer

/-- A whole chunk that is written leaves nothing if it holds fill values only, else its
encoded form. -/
theorem writeChunk_stored
    (h : (writeChunk codec false chunk decoded).run Cell.store cell = (.ok (), after)) :
    (after = none ↔ chunk.AllFill decoded) ∧
      ∀ encoded, after = some encoded → codec.encode chunk decoded = .ok encoded := by
  rw [← Chunk.holdsOnlyFill_iff]
  unfold writeChunk at h
  split at h
  next hempty =>
    obtain ⟨-, rfl⟩ := Prod.mk.inj h
    exact ⟨iff_of_true rfl (by simpa using hempty), nofun⟩
  next hfill =>
    obtain ⟨encoded, between, hencode, h⟩ := Job.run_bind_eq_ok h
    obtain ⟨hok, rfl⟩ := Prod.mk.inj hencode
    obtain ⟨-, rfl⟩ := Prod.mk.inj h
    refine ⟨iff_of_false nofun (by simpa using hfill), ?_⟩
    rintro encoded' ⟨⟩
    exact hok

/-- **What the write of a region leaves** is what the merged chunk comes to: nothing if all
of its elements are the fill value. -/
theorem ChunkPlan.write_stored (hvacant : plan.chunkBox.vacant = false)
    (h : (plan.write codec limit false data).run Cell.store cell = (.ok (), after)) :
    ∃ whole, plan.merged codec limit data cell = .ok whole ∧
      (after = none ↔ plan.chunk.AllFill whole) ∧
      ∀ encoded, after = some encoded → codec.encode plan.chunk whole = .ok encoded := by
  unfold write at h
  rw [if_neg (by simpa using hvacant)] at h
  rw [merged]
  split at h
  next hcovers =>
    rw [if_pos hcovers]
    exact ⟨data, rfl, writeChunk_stored h⟩
  next hcovers =>
    obtain ⟨existing, between, hread, hrest⟩ := Job.run_bind_eq_ok h
    obtain ⟨_, between', -, hwrite⟩ := Job.run_bind_eq_ok hrest
    rw [if_neg hcovers, hread]
    exact ⟨_, rfl, writeChunk_stored hwrite⟩

/-! ### Writes among others -/

section Alone

variable {α : Type} {rules : Rules} {store : Store σ} {value : σ → String → Cell} {job : Job α}
  {key : String} {state final : σ} {result : α}

/-- What holds of a job that commits on a key that it has to itself. -/
theorem admits_of_commits (hkeeps : store.Keeps value Cell.unreliable) (place : Nat)
    (hkey : job.CallsOnly (·.key = key)) (hcommits : job.Commits) (state : σ) :
    (Division.alone hkeeps place key).Admits (fun other outcome share => other = place →
      ∀ after result, share = some after → outcome = .ok result →
        job.run Cell.store (value state key) = (.ok result, after)) state place job := by
  refine ⟨callsOnly_mono (fun call hcall => iff_of_true hcall rfl) hkey, ?_⟩
  rw [Division.share_alone]
  refine ensures_mono ?_
    (Division.ensures_alone (ensures_of_commits hcommits (value state key)))
  intro outcome share h _ after result hafter hok
  exact (h after hafter).2 result hok

/-- A job that runs alone and succeeds does on its key what it does where no call fails. -/
theorem run_of_commits (hkeeps : store.Keeps value Cell.unreliable)
    (hkey : job.CallsOnly (·.key = key)) (hcommits : job.Commits)
    (h : job.run store state = (.ok result, final)) :
    job.run Cell.store (value state key) = (.ok result, value final key) := by
  have hdone := Division.run_admits (admits_of_commits hkeeps 0 hkey hcommits state)
  rw [h] at hdone
  exact hdone rfl _ _ (Division.share_alone ..) rfl

/-- So does a job among others, if none of them makes a call on its key. -/
theorem work_of_commits (hkeeps : store.Keeps value Cell.unreliable) {jobs : List (Job α)}
    {place : Nat} (hjob : jobs[place]? = some job) (hkey : job.CallsOnly (·.key = key))
    (hcommits : job.Commits)
    (hothers : ∀ (other : Nat) job, jobs[other]? = some job → other ≠ place →
      job.CallsOnly (·.key ≠ key)) {schedule : Schedule}
    (hmem : ⟨place, .ok result⟩ ∈ (Crew.work rules store schedule jobs state).1.arrivals) :
    job.run Cell.store (value state key) =
      (.ok result, value (Crew.work rules store schedule jobs state).2 key) := by
  have hadmits : ∀ (other : Nat) job', jobs[other]? = some job' →
      (Division.alone hkeeps place key).Admits (fun other outcome share => other = place →
        ∀ after result, share = some after → outcome = .ok result →
          job.run Cell.store (value state key) = (.ok result, after)) state other job' := by
    intro other job' hjob'
    by_cases heq : other = place
    · subst heq
      obtain rfl : job = job' := Option.some.inj (hjob.symm.trans hjob')
      exact admits_of_commits hkeeps _ hkey hcommits state
    · refine ⟨callsOnly_mono (fun call hcall => iff_of_false hcall heq)
        (hothers other job' hjob' heq), ?_⟩
      exact ensures_of_forall (fun _ _ hsame => absurd hsame heq) job' _
  exact Division.work_arrived hadmits hmem rfl _ _ (Division.share_alone ..) rfl

end Alone

section Pipeline

variable {pipeline : Pipeline σ} {value : σ → String → Cell}
  (hconfig : pipeline.config.storeEmptyChunks = false) (hmap : pipeline.store.IsMap value)

theorem storeChunkJob_commits (pipeline : Pipeline σ) (chunk : Chunk) (decoded : Bytes) :
    (pipeline.storeChunkJob chunk decoded).Commits := by
  rcases storeChunkJob_cases pipeline chunk decoded with ⟨error, hjob⟩ | ⟨-, -, hjob⟩
  · rw [hjob]
    trivial
  · rw [hjob]
    exact writeChunk_commits ..

include hconfig hmap

/-- Storing a whole chunk leaves nothing if all of its elements are the fill value. -/
theorem storeChunk_stored {state final : σ}
    (h : pipeline.storeChunk chunk decoded state = (.ok (), final)) :
    value final chunk.key = none ↔ chunk.AllFill decoded := by
  have hrun := run_of_commits hmap (storeChunkJob_callsOnly pipeline chunk decoded)
    (storeChunkJob_commits pipeline chunk decoded) h
  rcases storeChunkJob_cases pipeline chunk decoded with ⟨error, hjob⟩ | ⟨-, -, hjob⟩
  · rw [hjob] at hrun
    cases (Prod.mk.inj hrun).1
  · rw [hjob, hconfig] at hrun
    exact (writeChunk_stored hrun).1

/-- So does the write of a region that has arrived without a failure, if no other entry of
the batch is about its chunk. -/
theorem writeRegions_stored {rules : Rules} {schedule : Schedule}
    {regions : List (ChunkPlan × Bytes)} {state : σ} {place : Nat} {region : ChunkPlan × Bytes}
    (hregion : regions[place]? = some region) (hvacant : region.1.chunkBox.vacant = false)
    (halone : ∀ (other : Nat) region', regions[other]? = some region' →
      region'.1.chunk.key = region.1.chunk.key → other = place)
    (hmem : ⟨place, .ok ()⟩ ∈ pipeline.writeArrivals rules schedule regions state) :
    ∃ whole, region.1.merged pipeline.codec pipeline.limit region.2
        (value state region.1.chunk.key) = .ok whole ∧
      (value (pipeline.writeRegions rules schedule regions state).2 region.1.chunk.key = none ↔
        region.1.chunk.AllFill whole) := by
  have hjob : (pipeline.writeJobs regions)[place]? = some (pipeline.writeJob region) := by
    rw [Pipeline.writeJobs, List.getElem?_map, hregion, Option.map_some]
  have hothers : ∀ (other : Nat) job, (pipeline.writeJobs regions)[other]? = some job →
      other ≠ place → job.CallsOnly (·.key ≠ region.1.chunk.key) := by
    intro other job hjob' hne
    rw [Pipeline.writeJobs, List.getElem?_map] at hjob'
    obtain ⟨region', hregion', rfl⟩ := Option.map_eq_some_iff.mp hjob'
    refine callsOnly_mono ?_ (region'.1.write_callsOnly _ _ _ _)
    intro call hcall hkey
    exact hne (halone other region' hregion' (hcall.symm.trans hkey))
  have hrun := work_of_commits hmap hjob (region.1.write_callsOnly _ _ _ _)
    (region.1.write_commits _ _ _ _) hothers hmem
  rw [Pipeline.writeJob, hconfig] at hrun
  obtain ⟨whole, hwhole, hstored, -⟩ := ChunkPlan.write_stored hvacant hrun
  exact ⟨whole, hwhole, hstored⟩

end Pipeline

/-! ### Runs of requests -/

/-- **A store stays without chunks of fill values.** If empty chunks are not kept, then at
every moment of a run of storing requests on an empty map, whichever calls fail, each value
decodes to elements of which one is not the fill value. A write of a whole chunk or of a
region that succeeds removes the key exactly if it brings all of the chunk to the fill
value. -/
theorem stores_stay_sparse {pipeline : Pipeline σ} {value : σ → String → Cell}
    (hmap : pipeline.store.IsMap value) (hconfig : pipeline.config.storeEmptyChunks = false)
    (hcodec : ∀ key, pipeline.codec.Inverts (descriptor key)) {start : σ}
    (hstart : ∀ key, value start key = none) {requests : List Request}
    (hrequests : ∀ request ∈ requests, request.Stores descriptor) :
    (∀ moment ∈ pipeline.moments requests start,
      pipeline.codec.Sparse descriptor (value moment)) ∧
    (∀ chunk decoded state final, pipeline.storeChunk chunk decoded state = (.ok (), final) →
      (value final chunk.key = none ↔ chunk.AllFill decoded)) ∧
    ∀ rules schedule batch shape buffer state regions,
      pipeline.prepare batch shape buffer = .ok regions →
      let ended := pipeline.storeChunks rules schedule batch shape buffer state
      let arrivals := pipeline.writeArrivals rules schedule regions state
      (ended.1 = .ok () → ∀ place < regions.length, ⟨place, .ok ()⟩ ∈ arrivals) ∧
      ∀ (place : Nat) region, regions[place]? = some region →
        region.1.chunkBox.vacant = false →
        (∀ (other : Nat) region', regions[other]? = some region' →
          region'.1.chunk.key = region.1.chunk.key → other = place) →
        ⟨place, .ok ()⟩ ∈ arrivals →
        ∃ whole, region.1.merged pipeline.codec pipeline.limit region.2
            (value state region.1.chunk.key) = .ok whole ∧
          (value ended.2 region.1.chunk.key = none ↔ region.1.chunk.AllFill whole) := by
  refine ⟨?_, ?_, ?_⟩
  · have hempty : pipeline.codec.Sparse descriptor (value start) := by
      intro key encoded hencoded
      rw [hstart key] at hencoded
      cases hencoded
    exact (sparse_preserved hmap pipeline.codec descriptor).moments
      (fun request hrequest => makesOnly_maySet hconfig hcodec (hrequests request hrequest)) hempty
  · intro chunk decoded state final h
    exact storeChunk_stored hconfig hmap h
  · intro rules schedule batch shape buffer state regions hregions ended arrivals
    have hended : ended = pipeline.writeRegions rules schedule regions state :=
      storeChunks_prepared hregions _ _ _
    rw [hended]
    refine ⟨?_, ?_⟩
    · intro hok place hplace
      exact arrived_of_writeRegions hok hplace
    · intro place region hregion hvacant halone hmem
      exact writeRegions_stored hconfig hmap hregion hvacant halone hmem

namespace Pair

/-- The chunk of a key. -/
def described (key : String) : Chunk := ⟨key, [2], "uint8", [9]⟩

/-- A pipeline that keeps no empty chunks, over a table that refuses to put the second
chunk. -/
def sparing : Pipeline Table :=
  Table.pipeline (fun verb key => verb = .set && key = "b") (Tagged.codec none)
    { storeEmptyChunks := false }

/-- The first chunk is stored, and then a batch brings its first element back to the fill
value. -/
def refilling : List Request :=
  [.storeChunk (described "a") [1, 9],
    .storeChunks ⟨.drain, 2⟩ alternating batch [3] [9, 2, 3]]

/-- The table with the first chunk stored. -/
def stored : Table := (sparing.storeChunk (described "a") [1, 9] {}).2

/-- The entry that refills the first chunk, with its region. -/
def refill : ChunkPlan × Bytes := (⟨described "a", [⟨0, 1⟩], [⟨0, 1⟩]⟩, [9])

/-- The entry whose chunk is refused, with its region. -/
def unput : ChunkPlan × Bytes := (⟨described "b", [⟨0, 2⟩], [⟨1, 2⟩]⟩, [2, 3])

theorem refilling_stores : ∀ request ∈ refilling, request.Stores described := by
  simp [refilling, Request.Stores, batch, described]

theorem refill_alone : ∀ (other : Nat) region', [refill, unput][other]? = some region' →
    region'.1.chunk.key = refill.1.chunk.key → other = 0 := by
  rintro (_ | _ | other) region' hregion' hkey
  · rfl
  · obtain rfl : unput = region' := Option.some.inj hregion'
    exact absurd hkey (by decide)
  · simp at hregion'

/-- The batch fails, but the first chunk is removed, and at no moment has the table held a
chunk of fill values. -/
theorem refilled_is_removed :
    (∀ moment ∈ sparing.moments refilling {},
      (Tagged.codec none).Sparse described moment.value) ∧
    (sparing.moments refilling {}).map (·.value "a") =
      [none, some [0xEE, 1, 9], some [0xEE, 1, 9], some [0xEE, 1, 9], none] ∧
    (sparing.storeChunks ⟨.drain, 2⟩ alternating batch [3] [9, 2, 3] stored).2.value "a" =
      none := by
  have hmap : sparing.store.IsMap Table.value := Table.store_isMap _
  have hcodec : ∀ key, sparing.codec.Inverts (described key) :=
    fun key decoded encoded h => Tagged.decode_encode h
  obtain ⟨hsparse, -, hbatch⟩ :=
    stores_stay_sparse hmap rfl hcodec Table.value_empty refilling_stores
  have harrivals : sparing.writeArrivals ⟨.drain, 2⟩ alternating [refill, unput] stored =
      [⟨1, .error (Table.refusal .set "b")⟩, ⟨0, .ok ()⟩] := rfl
  obtain ⟨-, hentries⟩ := hbatch ⟨.drain, 2⟩ alternating batch [3] [9, 2, 3] stored
    [refill, unput] rfl
  obtain ⟨whole, hwhole, hremoved⟩ :=
    hentries 0 refill rfl rfl refill_alone (by rw [harrivals]; simp)
  obtain rfl : [9, 9] = whole := Except.ok.inj hwhole
  exact ⟨hsparse, rfl, hremoved.mpr (Chunk.holdsOnlyFill_iff.mp rfl)⟩

end Pair

end ChunkedArray
