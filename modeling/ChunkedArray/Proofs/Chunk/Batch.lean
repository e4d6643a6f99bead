import ChunkedArray.Chunk.Batch
import ChunkedArray.Proofs.Selection.Denotation

/-!
# ChunkedArray.Proofs.Chunk.Batch

The entries of a batch of requests that passes its checks.

Where the selection of a chunk is plain, the slices of its entry are a box with exactly the
coordinates that the selection denotes (`boxes_of_buildBatch`). The box has the shape that
the request was checked with, apart from the axes that integers take.
-/

namespace ChunkedArray

variable {requests : List ChunkRequest} {request : ChunkRequest} {dropped : DropAxes}
  {entries : List BatchEntry} {entry : BatchEntry}

/-- A batch is built if every request passes its check and has slices. -/
theorem buildBatch_eq_ok : buildBatch requests dropped = .ok entries ↔
    (∀ request ∈ requests, request.checkViews dropped = .ok ()) ∧
      List.Forall₂ (fun request entry => request.toEntry = .ok entry) requests entries := by
  rw [buildBatch, Outcome.bind_eq_ok, ← Outcome.mapM_eq_ok, ← Outcome.forM_eq_ok]
  constructor
  · rintro ⟨_, hchecks, hentries⟩
    exact ⟨hchecks, hentries⟩
  · rintro ⟨hchecks, hentries⟩
    exact ⟨(), hchecks, hentries⟩

namespace ChunkRequest

theorem toEntry_eq_ok : request.toEntry = .ok entry ↔
    (request.outSelection.expandEllipsis request.chunk.shape.length).toSlices =
        .ok entry.outSlices ∧
      (request.chunkSelection.expandEllipsis request.chunk.shape.length).toSlices =
        .ok entry.chunkSlices ∧
      entry.chunk = request.chunk := by
  simp only [toEntry, Outcome.bind_eq_ok, Outcome.pure_eq_ok]
  constructor
  · rintro ⟨outSlices, hout, chunkSlices, hchunk, rfl⟩
    exact ⟨hout, hchunk, rfl⟩
  · rintro ⟨hout, hchunk, heq⟩
    refine ⟨_, hout, _, hchunk, ?_⟩
    rw [← heq]

/-- The selection of a chunk that passes its check has a shape with no axis dropped. -/
theorem exists_resultShape (h : request.checkViews dropped = .ok ()) :
    ∃ result, request.chunkSelection.resultShape request.chunk.shape [] true = .ok result := by
  obtain ⟨_, _, hchunk⟩ := Outcome.bind_eq_ok.mp h
  obtain ⟨_, hshape, _⟩ := Outcome.bind_eq_ok.mp hchunk
  obtain ⟨block, reached, hblock, hwalk, -⟩ := Selection.resultShape_eq_ok_iff.mp hshape
  exact ⟨_, Selection.resultShape_eq_ok.mpr ⟨block, reached, hblock, hwalk, rfl⟩⟩

end ChunkRequest

/-- **The slices of an entry read what its selection denotes.** They are a box in the chunk
with exactly the coordinates that a plain selection denotes. Its lengths, without the axes
that integers take, are the shape of the selection. -/
theorem boxes_of_buildBatch (h : buildBatch requests dropped = .ok entries) {place : Nat}
    (hplace : requests[place]? = some request)
    (hshape : Shape.Addressable request.chunk.shape)
    (hplain : request.chunkSelection.Plain request.chunk.shape) :
    ∃ entry box, entries[place]? = some entry ∧ entry.chunk = request.chunk ∧
      Box.ofSlices entry.chunkSlices request.chunk.shape = .ok box ∧
      (∀ coordinate, coordinate ∈ box.coordinates ↔
        request.chunkSelection.Denotes request.chunk.shape coordinate) ∧
      request.chunkSelection.resultShape request.chunk.shape [] true =
        .ok (Selection.keptLengths
          (request.chunkSelection.hostAxes request.chunk.shape.length) box.lengths) := by
  obtain ⟨hchecks, hentries⟩ := buildBatch_eq_ok.mp h
  obtain ⟨entry, hentry, hslices⟩ := exists_of_forall₂ hentries hplace
  obtain ⟨-, hslices, hchunk⟩ := ChunkRequest.toEntry_eq_ok.mp hslices
  obtain ⟨result, hresult⟩ :=
    ChunkRequest.exists_resultShape (hchecks request (List.mem_of_getElem? hplace))
  obtain ⟨box, hbox, hcoordinates, rfl⟩ := hplain.resolves hshape hresult hslices
  exact ⟨entry, box, hentry, hchunk, hbox, hcoordinates, hresult⟩

namespace Row

/-- Two planes of a chunk, at one place of the last axis. -/
def asked : ChunkRequest :=
  ⟨⟨"a", [4, 5, 6], "uint8", [0]⟩, [.indexArray (.ofList [1, 2]), .ellipsis, .integer 3],
    [.slice (.unit 0 2), .slice .full]⟩

/-- The entry of the request. -/
def built : BatchEntry :=
  ⟨asked.chunk, [.unit 1 3, .full, .unit 3 4], [.unit 0 2, .full]⟩

/-- An index array, an axis for the ellipsis and an integer: the box has the axes of the chunk,
and the shape is that of the box without the last one. -/
theorem boxes_of_asked :
    buildBatch [asked] [] = .ok [built] ∧ Shape.Addressable asked.chunk.shape ∧
      asked.chunkSelection.Plain asked.chunk.shape ∧
      (∀ coordinate, coordinate ∈ Box.coordinates [⟨1, 2⟩, ⟨0, 5⟩, ⟨3, 1⟩] ↔
        asked.chunkSelection.Denotes [4, 5, 6] coordinate) ∧
      asked.chunkSelection.resultShape [4, 5, 6] [] true = .ok [2, 5] := by
  have hbatch : buildBatch [asked] [] = .ok [built] := rfl
  have hshape : Shape.Addressable asked.chunk.shape := by decide
  have hplain : asked.chunkSelection.Plain asked.chunk.shape :=
    ⟨by decide, by decide, rfl, by decide, by decide, by decide⟩
  have hplace : [asked][0]? = some asked := rfl
  obtain ⟨entry, box, hentry, -, hbox, hcoordinates, hresult⟩ :=
    boxes_of_buildBatch hbatch hplace hshape hplain
  obtain rfl := Option.some.inj hentry
  obtain rfl : [⟨1, 2⟩, ⟨0, 5⟩, ⟨3, 1⟩] = box := Except.ok.inj hbox
  exact ⟨hbatch, hshape, hplain, hcoordinates, hresult⟩

end Row

end ChunkedArray
