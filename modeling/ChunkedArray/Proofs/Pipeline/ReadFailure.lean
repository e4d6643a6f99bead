import ChunkedArray.Proofs.Codec.Partial
import ChunkedArray.Proofs.Pipeline.Keys
import ChunkedArray.Proofs.Pipeline.Retrieval

/-!
# ChunkedArray.Proofs.Pipeline.ReadFailure

The error of a batch of reads in which one key cannot be read.

If reading the key of one entry fails and nothing else does, the batch fails with the error
of that entry, in whatever order the calls are made. Which error this is depends on the
region (`retrieveChunks_unreadable`): a whole chunk is read by the pipeline itself and the
error of the store comes through as it is, while a part of a chunk is read by the codec
chain, which makes an error of its own of it, whatever its stages are (`openAll_fails`).
-/

namespace ChunkedArray

open Job

variable {α β σ : Type} {store : Store σ} {key : String} {error failure : AccessError}

/-! ### Keys that cannot be read -/

/-- Every call that reads the key is answered with the error. -/
def Store.FailsReading (store : Store σ) (key : String) (error : AccessError) : Prop :=
  ∀ call, call.isRead → call.key = key → ∀ state, (store.answer call state).1 = .error error

/-- The answers of a store on which reading the key fails with the error. -/
def unreadable (key : String) (error : AccessError) : Answering Unit :=
  fun call _ answer _ => call.isRead → call.key = key → answer = .error error

/-- The division in which nothing is known of the state but that the key cannot be read. -/
def Division.unreadable (h : store.FailsReading key error) : Division store Unit where
  share _ _ := ()
  may _ _ := True
  answers := ChunkedArray.unreadable key error
  own _ state hread hkey := h _ hread hkey state
  others _ _ _ := rfl

/-- The job ends with the failure where reading the key fails with the error. -/
def Job.FailsWith (job : Job α) (key : String) (error failure : AccessError) : Prop :=
  job.Ensures (unreadable key error) (fun outcome _ => outcome = .error failure) ()

namespace Job

theorem failsWith_ofCall {call : StoreCall} (hread : call.isRead) (hkey : call.key = key) :
    (ofCall call).FailsWith key error error :=
  fun _ _ hanswer => hanswer hread hkey

theorem failsWith_bind {job : Job α} (h : job.FailsWith key error failure) (next : α → Job β) :
    (job.bind next).FailsWith key error failure := by
  refine ensures_bind (ensures_mono ?_ h)
  rintro (failure' | value) ⟨⟩ houtcome
  · rw [Except.error.inj houtcome]
  · cases houtcome

/-- A step that goes well is passed over. -/
theorem failsWith_bind_ok {outcome : Outcome α} {value : α} {next : α → Job β}
    (h : outcome = .ok value) (hnext : (next value).FailsWith key error failure) :
    ((ofOutcome outcome).bind next).FailsWith key error failure := by
  rw [h]
  exact hnext

end Job

/-! ### Reading through a codec chain -/

namespace Stage

/-- No part of the opened bytes can be read. -/
def Opened.Fails (opened : Opened) (key : String) (error : AccessError) : Prop :=
  ∀ ranges, (opened.read key ranges).FailsWith key error (.encodedRead key error)

theorem stored_fails (key : String) (error : AccessError) : Opened.stored.Fails key error := by
  intro ranges answer _ hanswer
  rw [hanswer rfl rfl]
  rfl

theorem checked_fails {opened : Opened} (h : opened.Fails key error) :
    (Opened.checked opened).Fails key error :=
  fun ranges => failsWith_bind (h (ranges.map checksumRange)) _

/-- Behind any row of stages, the bytes cannot be opened or no part of them can be read. -/
theorem openAll_fails (key : String) (error : AccessError) (stages : List Stage) :
    (openAll key stages).Ensures (unreadable key error) (fun outcome _ => match outcome with
      | .ok opened => opened.Fails key error
      | .error failure => failure = .encodedRead key error) () := by
  induction stages with
  | nil => exact stored_fails key error
  | cons stage stages ih =>
    cases stage with
    | crc32c =>
      refine ensures_bind (ensures_mono ?_ ih)
      rintro (failure | opened) ⟨⟩ houtcome
      · exact houtcome
      · exact checked_fails houtcome
    | gzip =>
      refine ensures_bind (ensures_mono ?_ ih)
      rintro (failure | opened) ⟨⟩ houtcome
      · exact houtcome
      · -- all bytes are read at once, which fails already
        refine ensures_mono ?_ (failsWith_bind (houtcome allBytes) _)
        rintro outcome ⟨⟩ rfl
        rfl

end Stage

/-- Whatever is done with the opened bytes fails if reading them does. -/
theorem failsWith_bind_openAll {stages : List Stage} {next : Stage.Opened → Job α}
    (hnext : ∀ opened : Stage.Opened, opened.Fails key error →
      (next opened).FailsWith key error (.encodedRead key error)) :
    ((Stage.openAll key stages).bind next).FailsWith key error (.encodedRead key error) := by
  refine ensures_bind (ensures_mono ?_ (Stage.openAll_fails key error stages))
  rintro (failure | opened) ⟨⟩ houtcome
  · exact congrArg Except.error houtcome
  · exact hnext opened houtcome

/-- The codec makes an error of its own of the failure, whichever region it reads. -/
theorem partialDecode_fails {chain : CodecChain} {chunk : Chunk} (htakes : chain.Takes chunk)
    {box : Box} (hfits : box.fits chunk.shape) (error : AccessError) :
    (chain.partialDecode chunk box).FailsWith chunk.key error (.encodedRead chunk.key error) := by
  obtain ⟨type, htype, helements⟩ := htakes
  refine failsWith_bind_ok htype ?_
  cases hchain : chain.elements with
  | bytes order =>
    rw [hchain, ElementCodec.takes] at helements
    obtain ⟨size, hsize⟩ := Option.isSome_iff_exists.mp helements
    simp only [hsize]
    refine failsWith_bind_openAll fun opened hopened => failsWith_bind ?_ _
    rw [CodecChain.partialElements, if_pos hfits]
    exact failsWith_bind (hopened _) _
  | items =>
    rw [hchain, ElementCodec.takes] at helements
    simp only [Option.isNone_iff_eq_none.mp helements]
    refine failsWith_bind_openAll fun opened hopened => failsWith_bind ?_ _
    exact failsWith_bind (hopened Stage.allBytes) _

/-! ### Reading a region -/

/-- The error that comes of a failure to read the chunk of a plan. -/
def ChunkPlan.readError (plan : ChunkPlan) (error : AccessError) : AccessError :=
  if plan.coversChunk then error else .encodedRead plan.chunk.key error

theorem ChunkPlan.read_fails {plan : ChunkPlan} {chain : CodecChain} {limit : UInt64} {count : Nat}
    (hcount : plan.chunk.checkedLength limit = .ok count)
    (hfits : plan.chunkBox.fits plan.chunk.shape) (hvacant : plan.chunkBox.vacant = false)
    (htakes : plan.coversChunk = false → chain.Takes plan.chunk) (error : AccessError) :
    (plan.read chain.codec limit).FailsWith plan.chunk.key error (plan.readError error) := by
  unfold read
  rw [if_neg (by simpa using hvacant), readError]
  split
  next hcovers =>
    exact failsWith_bind_ok hcount (failsWith_bind (failsWith_ofCall rfl rfl) _)
  next hcovers =>
    refine failsWith_bind_ok hcount (failsWith_bind ?_ _)
    exact partialDecode_fails (htakes (by simpa using hcovers)) hfits error

/-! ### Batches -/

/-- The outcomes of the reads of a batch, in the order of their arrival. -/
def Pipeline.readArrivals (pipeline : Pipeline σ) (rules : Rules) (schedule : Schedule)
    (plans : List ChunkPlan) (state : σ) : List (Arrival Bytes) :=
  (Crew.work rules pipeline.store schedule (pipeline.readJobs plans) state).1.arrivals

/-- Reading the key of the plan at the place fails with the error, and nothing else does. -/
structure Pipeline.FailsOnlyAt (pipeline : Pipeline σ) (rules : Rules) (schedule : Schedule)
    (plans : List ChunkPlan) (state : σ) (place : Nat) (plan : ChunkPlan) (error : AccessError) :
    Prop where
  planned : plans[place]? = some plan
  fails : pipeline.store.FailsReading plan.chunk.key error
  others : ∀ other outcome, ⟨other, outcome⟩ ∈ pipeline.readArrivals rules schedule plans state →
    other ≠ place → ∃ region, outcome = .ok region

section Batch

variable {pipeline : Pipeline σ} {chain : CodecChain} {rules : Rules} {schedule : Schedule}
  {batch : List BatchEntry} {shape : Shape} {buffer : Bytes} {plans : List ChunkPlan} {state : σ}
  {place : Nat} {plan : ChunkPlan}

/-- The read of the chunk arrives with the failure, if it arrives. -/
theorem readArrivals_unreadable (hcodec : pipeline.codec = chain.codec)
    (hplans : pipeline.plan batch shape buffer = .ok plans)
    (h : pipeline.FailsOnlyAt rules schedule plans state place plan error)
    (hvacant : plan.chunkBox.vacant = false)
    (htakes : plan.coversChunk = false → chain.Takes plan.chunk) {outcome : Outcome Bytes}
    (hmem : ⟨place, outcome⟩ ∈ pipeline.readArrivals rules schedule plans state) :
    outcome = .error (plan.readError error) := by
  have hplan : plan ∈ plans := List.mem_of_getElem? h.planned
  obtain ⟨count, hcount⟩ := checkedLength_of_planBatch hplans plan hplan
  have hfits := (sound_of_planBatch hplans plan hplan).chunkFits
  have hjobs : ∀ (other : Nat) job, (pipeline.readJobs plans)[other]? = some job →
      (Division.unreadable h.fails).Admits (fun other outcome _ => other = place →
        outcome = .error (plan.readError error)) state other job := by
    intro other job hjob
    refine ⟨callsOnly_of_forall (fun _ => True.intro) job, ?_⟩
    by_cases heq : other = place
    · subst heq
      rw [Pipeline.readJobs, List.getElem?_map, h.planned] at hjob
      obtain rfl := Option.some.inj hjob
      rw [hcodec]
      exact ensures_mono (fun _ _ hfailed _ => hfailed)
        (plan.read_fails hcount hfits hvacant htakes error)
    · exact ensures_of_forall (fun _ _ hsame => absurd hsame heq) job _
  exact Division.work_arrived hjobs hmem rfl

/-- **A key that cannot be read fails the batch.** Where the region is the whole chunk, the
batch fails with the error of the store; where it is a part of the chunk, with the error
that the codec makes of it. The buffer stays as it is. -/
theorem retrieveChunks_unreadable (hcodec : pipeline.codec = chain.codec)
    (hplans : pipeline.plan batch shape buffer = .ok plans)
    (h : pipeline.FailsOnlyAt rules schedule plans state place plan error)
    (hvacant : plan.chunkBox.vacant = false)
    (htakes : plan.coversChunk = false → chain.Takes plan.chunk) :
    (pipeline.retrieveChunks rules schedule batch shape buffer state).1 =
      .failed buffer (plan.readError error) := by
  have hplace : place < (pipeline.readJobs plans).length := by
    rw [Pipeline.readJobs, List.length_map]
    exact (List.getElem?_eq_some_iff.mp h.planned).1
  have hread : (pipeline.readRegions rules schedule plans state).1 =
      .error (plan.readError error) :=
    dispatch_eq_error hplace
      (fun _ hmem => readArrivals_unreadable hcodec hplans h hvacant htakes hmem) h.others
  rw [retrieveChunks_unread hplans (Prod.ext hread rfl)]

end Batch

namespace Pair

/-- A chain of bytes and a checksum. -/
def summed : CodecChain := ⟨.bytes (some .little), [.crc32c], true⟩

/-- The pipeline in which the first chunk cannot be read. -/
def unread : Pipeline Table :=
  Table.pipeline (fun verb key => verb = .get && key = "a") summed.codec {}

/-- The plan of the first entry, for a part of its chunk. -/
def part : ChunkPlan := ⟨⟨"a", [2], "uint8", [9]⟩, [⟨0, 1⟩], [⟨0, 1⟩]⟩

/-- The plan of the second entry, for all of its chunk. -/
def all : ChunkPlan := ⟨⟨"b", [2], "uint8", [9]⟩, [⟨0, 2⟩], [⟨1, 2⟩]⟩

theorem unread_failsOnlyAt :
    unread.FailsOnlyAt ⟨.drain, 2⟩ alternating [part, all] {} 0 part (Table.refusal .get "a") where
  planned := rfl
  fails := by
    rintro (key | ⟨key, ranges⟩ | ⟨key, value⟩ | key) hread hkey table
    · obtain rfl : key = "a" := hkey
      rfl
    · obtain rfl : key = "a" := hkey
      rfl
    · cases hread
    · cases hread
  others := by
    have harrivals : unread.readArrivals ⟨.drain, 2⟩ alternating [part, all] {} =
        [⟨1, .ok [9, 9]⟩, ⟨0, .error (.encodedRead "a" (Table.refusal .get "a"))⟩] := rfl
    intro other outcome hmem hne
    rw [harrivals] at hmem
    rcases List.mem_cons.mp hmem with heq | hlast
    · exact ⟨[9, 9], congrArg Arrival.outcome heq⟩
    · exact absurd (congrArg Arrival.place (List.mem_singleton.mp hlast)) hne

theorem summed_takes : summed.Takes part.chunk := ⟨.uint8, rfl, rfl⟩

/-- The batch fails with an error of the codec, since only a part of the chunk is read. -/
theorem unread_fails_in_codec :
    (unread.retrieveChunks ⟨.drain, 2⟩ alternating batch [3] [1, 2, 3] {}).1 =
      .failed [1, 2, 3] (.encodedRead "a" (Table.refusal .get "a")) := by
  have hcodec : unread.codec = summed.codec := rfl
  exact retrieveChunks_unreadable hcodec rfl unread_failsOnlyAt rfl fun _ => summed_takes

end Pair

/-- The error of the store does not always come through as it is. -/
theorem not_unreadable_unchanged :
    ¬ ∀ (σ : Type) (pipeline : Pipeline σ) (chain : CodecChain) (rules : Rules)
        (schedule : Schedule) (batch : List BatchEntry) (shape : Shape) (buffer : Bytes)
        (plans : List ChunkPlan) (state : σ) (place : Nat) (plan : ChunkPlan)
        (error : AccessError),
      pipeline.codec = chain.codec → pipeline.plan batch shape buffer = .ok plans →
      pipeline.FailsOnlyAt rules schedule plans state place plan error →
      chain.Takes plan.chunk → plan.chunkBox.vacant = false →
      (pipeline.retrieveChunks rules schedule batch shape buffer state).1.outcome =
        .error error := by
  intro h
  have hunchanged := h Table Pair.unread Pair.summed ⟨.drain, 2⟩ Pair.alternating Pair.batch [3]
    [1, 2, 3] [Pair.part, Pair.all] {} 0 Pair.part (Table.refusal .get "a") rfl rfl
    Pair.unread_failsOnlyAt Pair.summed_takes rfl
  have hended : (Except.error (.encodedRead "a" (Table.refusal .get "a")) : Outcome Unit) =
      .error (Table.refusal .get "a") := hunchanged
  cases hended

end ChunkedArray
