import ChunkedArray.Chunk.Batch
import ChunkedArray.Proofs.Outcome
import ChunkedArray.Proofs.Selection.Rank

/-!
# ChunkedArray.Proofs.Chunk.Views

Which requests pass the check of their views.

The two views of a request have to keep the same number of axes. Where both selections can be
measured at all (`ChunkRequest.Measured`), the numbers of axes follow from the numbers of
selectors of each kind, so that the check is decided by counting (`ChunkRequest.RanksAgree`).
A request that fails it stops the whole batch, with the shapes of its two views in the error.
-/

namespace ChunkedArray

namespace ChunkRequest

/-- Both selections fit the chunk, and the index arrays of each can be broadcast together. -/
structure Measured (request : ChunkRequest) : Prop where
  chunk : request.chunkSelection.Fits request.chunk.shape.length
  chunkArrays : Shape.Broadcastable
    ((Selection.indexArrays request.chunkSelection).map IndexArray.shape)
  out : request.outSelection.Fits request.chunk.shape.length
  outArrays : Shape.Broadcastable
    ((Selection.indexArrays request.outSelection).map IndexArray.shape)

/-- The view of the buffer has as many axes as that of the chunk keeps when those of its places
are removed that are dropped. -/
def RanksAgree (request : ChunkRequest) (dropped : DropAxes) : Prop :=
  let rank := request.chunkSelection.paddedRank request.chunk.shape.length
  request.outSelection.viewRank request.chunk.shape.length =
    rank - (List.range rank).countP (· ∈ dropped)

instance (request : ChunkRequest) (dropped : DropAxes) : Decidable (request.RanksAgree dropped) :=
  inferInstanceAs (Decidable (_ = _))

variable {request : ChunkRequest}

/-- The check compares the ranks of the two views. -/
theorem checkViews_of_shapes {dropped : DropAxes} {out chunk : Shape}
    (hout : request.outSelection.resultShape request.chunk.shape [] false = .ok out)
    (hchunk : request.chunkSelection.resultShape request.chunk.shape dropped true = .ok chunk) :
    request.checkViews dropped =
      if out.length = chunk.length then .ok () else .error (.collapsedDimension out chunk) := by
  simp only [checkViews, hout, hchunk, bind, Except.bind]
  by_cases hsame : out.length = chunk.length
  · simp only [hsame, ne_eq, not_true_eq_false, if_false, if_true]
    rfl
  · simp only [hsame, ne_eq, not_false_eq_true, if_true, if_false]
    rfl

/-- **The check of the views is decided by counting selectors.** A request that can be measured
has both shapes, and it passes just where its ranks agree. Else the whole batch is refused with
the two shapes, if every request in front passes. -/
theorem checkViews_ranks (hmeasured : request.Measured) (dropped : DropAxes) :
    ∃ out chunk,
      request.outSelection.resultShape request.chunk.shape [] false = .ok out ∧
      request.chunkSelection.resultShape request.chunk.shape dropped true = .ok chunk ∧
      (request.checkViews dropped = .ok () ↔ request.RanksAgree dropped) ∧
      (¬ request.RanksAgree dropped →
        request.checkViews dropped = .error (.collapsedDimension out chunk) ∧
        ∀ before after, (∀ earlier ∈ before, earlier.checkViews dropped = .ok ()) →
          buildBatch (before ++ request :: after) dropped =
            .error (.collapsedDimension out chunk)) := by
  obtain ⟨out, hout, houtRank⟩ := hmeasured.out.exists_view hmeasured.outArrays
  obtain ⟨whole, hwhole, hwholeRank⟩ := hmeasured.chunk.exists_padded hmeasured.chunkArrays
  have hchunk := Selection.resultShape_dropped hwhole dropped
  have hranks : out.length = (Selection.withoutAxes dropped whole).length ↔
      request.RanksAgree dropped := by
    rw [Selection.length_withoutAxes, houtRank, hwholeRank]
    rfl
  have hcheck := checkViews_of_shapes hout hchunk
  simp only [hranks] at hcheck
  refine ⟨out, _, hout, hchunk, ?_, fun hfail => ?_⟩
  · rw [hcheck]
    by_cases hagree : request.RanksAgree dropped <;> simp [hagree]
  · rw [if_neg hfail] at hcheck
    refine ⟨hcheck, fun before after hbefore => ?_⟩
    rw [buildBatch, Outcome.forM_eq_error hbefore hcheck]
    rfl

namespace Block

/-- Two index arrays, an integer and an ellipsis for a chunk of four axes: the shape of the whole
view is `[2, 3, 6]`. -/
def asked : ChunkRequest :=
  ⟨⟨"a", [4, 5, 6, 7], "uint8", [0]⟩,
    [.indexArray ⟨[1, 2], [2, 1]⟩, .ellipsis, .indexArray (.ofList [0, 1, 3]), .integer 3],
    [.slice (.unit 0 2), .slice (.unit 0 3)]⟩

/-- The last axis of the view of the chunk is dropped, and so would be one behind it. With no
axis dropped the request is refused. -/
theorem checkViews_ranks_asked :
    asked.Measured ∧ asked.checkViews [2, 9] = .ok () ∧
      buildBatch [asked, asked] [] = .error (.collapsedDimension [2, 3] [2, 3, 6]) := by
  have harrays : Shape.Broadcastable [[2, 1], [3]] := by decide
  have hmeasured : asked.Measured := by
    refine ⟨⟨by decide, by decide, ?_⟩, harrays, ⟨by decide, by decide, ?_⟩, nofun⟩
    · intro range hmem
      simp [asked] at hmem
    · intro range hmem
      simp [asked] at hmem
      rcases hmem with rfl | rfl <;> rfl
  obtain ⟨_, _, -, -, hpass, -⟩ := checkViews_ranks hmeasured [2, 9]
  obtain ⟨out, chunk, hout, hchunk, -, hfail⟩ := checkViews_ranks hmeasured []
  obtain rfl : [2, 3] = out := Except.ok.inj hout
  obtain rfl : [2, 3, 6] = chunk := Except.ok.inj hchunk
  exact ⟨hmeasured, hpass.mpr (by decide), (hfail (by decide)).2 [] [asked] nofun⟩

end Block

end ChunkRequest

end ChunkedArray
