import ChunkedArray.Proofs.Chunk.Batch

/-!
# ChunkedArray.Proofs.Chunk.Precedence

What becomes of a batch of requests, by what becomes of each of them.

A request can have a fault in the shapes of its two views (`ChunkRequest.ShapeFault`), or in one
of its selections that is no rectangle (`ChunkRequest.SliceFault`). All shapes are checked before
the first selection is made into slices. So a batch is refused with the first fault of a shape, and
only if no request has one, with the first fault of a rectangle (`FirstFault`). A batch that is
built is made of what its requests give one by one (`buildBatch_compositional`).
-/

namespace ChunkedArray

namespace ChunkRequest

/-- Why the two views of a request are refused. The view of the buffer is looked at first, then
that of the chunk, and last the ranks of both. -/
inductive ShapeFault (request : ChunkRequest) (dropped : DropAxes) : SelectionError → Prop
  | out {error : SelectionError}
      (hout : request.outSelection.resultShape request.chunk.shape [] false = .error error) :
      ShapeFault request dropped error
  | chunk {out : Shape} {error : SelectionError}
      (hout : request.outSelection.resultShape request.chunk.shape [] false = .ok out)
      (hchunk : request.chunkSelection.resultShape request.chunk.shape dropped true =
        .error error) :
      ShapeFault request dropped error
  | ranks {out chunk : Shape}
      (hout : request.outSelection.resultShape request.chunk.shape [] false = .ok out)
      (hchunk : request.chunkSelection.resultShape request.chunk.shape dropped true = .ok chunk)
      (hranks : out.length ≠ chunk.length) :
      ShapeFault request dropped (.collapsedDimension out chunk)

/-- Why a request has no slices: the selection of the buffer is looked at first, then that of the
chunk. -/
inductive SliceFault (request : ChunkRequest) : SelectionError → Prop
  | out {error : SelectionError}
      (hout : (request.outSelection.expandEllipsis request.chunk.shape.length).toSlices =
        .error error) :
      SliceFault request error
  | chunk {slices : List Slice} {error : SelectionError}
      (hout : (request.outSelection.expandEllipsis request.chunk.shape.length).toSlices =
        .ok slices)
      (hchunk : (request.chunkSelection.expandEllipsis request.chunk.shape.length).toSlices =
        .error error) :
      SliceFault request error

end ChunkRequest

/-- The error that a batch is refused with. A fault of a shape counts only if no earlier request
has one, and a fault of a rectangle only if no request at all has a fault of a shape. -/
inductive FirstFault (dropped : DropAxes) : List ChunkRequest → SelectionError → Prop
  | shape {before after : List ChunkRequest} {request : ChunkRequest} {error : SelectionError}
      (hbefore : ∀ earlier ∈ before, ∀ fault, ¬ earlier.ShapeFault dropped fault)
      (hrequest : request.ShapeFault dropped error) :
      FirstFault dropped (before ++ request :: after) error
  | slice {before after : List ChunkRequest} {request : ChunkRequest} {error : SelectionError}
      (hshapes : ∀ other ∈ before ++ request :: after, ∀ fault, ¬ other.ShapeFault dropped fault)
      (hbefore : ∀ earlier ∈ before, ∀ fault, ¬ earlier.SliceFault fault)
      (hrequest : request.SliceFault error) :
      FirstFault dropped (before ++ request :: after) error

variable {requests : List ChunkRequest} {request : ChunkRequest} {dropped : DropAxes}
  {entries : List BatchEntry} {error : SelectionError}

/-! ### The faults of a request -/

namespace ChunkRequest

theorem checkViews_eq_error :
    request.checkViews dropped = .error error ↔ request.ShapeFault dropped error := by
  simp only [checkViews, Outcome.bind_eq_error]
  constructor
  · intro h
    rcases h with hout | ⟨out, hout, hchunk | ⟨chunk, hchunk, hranks⟩⟩
    · exact .out hout
    · exact .chunk hout hchunk
    · split at hranks
      next hne =>
        obtain rfl := Except.error.inj hranks
        exact .ranks hout hchunk hne
      next => cases hranks
  · intro h
    cases h with
    | out hout => exact Or.inl hout
    | chunk hout hchunk => exact Or.inr ⟨_, hout, Or.inl hchunk⟩
    | ranks hout hchunk hne =>
      refine Or.inr ⟨_, hout, Or.inr ⟨_, hchunk, ?_⟩⟩
      rw [if_pos hne]
      rfl

theorem toEntry_eq_error : request.toEntry = .error error ↔ request.SliceFault error := by
  simp only [toEntry, Outcome.bind_eq_error]
  constructor
  · intro h
    rcases h with hout | ⟨slices, hout, hchunk | ⟨_, _, hpure⟩⟩
    · exact .out hout
    · exact .chunk hout hchunk
    · cases hpure
  · intro h
    cases h with
    | out hout => exact Or.inl hout
    | chunk hout hchunk => exact Or.inr ⟨_, hout, Or.inl hchunk⟩

theorem checkViews_eq_ok :
    request.checkViews dropped = .ok () ↔ ∀ fault, ¬ request.ShapeFault dropped fault := by
  have hvalue : request.checkViews dropped = .ok () ↔
      ∃ value, request.checkViews dropped = .ok value :=
    ⟨fun h => ⟨(), h⟩, fun ⟨_, h⟩ => h⟩
  rw [hvalue, Outcome.exists_ok_iff]
  simp only [ne_eq, checkViews_eq_error]

theorem exists_toEntry :
    (∃ entry, request.toEntry = .ok entry) ↔ ∀ fault, ¬ request.SliceFault fault := by
  simp only [Outcome.exists_ok_iff, ne_eq, toEntry_eq_error]

end ChunkRequest

/-! ### The fault of a batch -/

/-- A batch is refused with its first fault. -/
theorem buildBatch_eq_error :
    buildBatch requests dropped = .error error ↔ FirstFault dropped requests error := by
  constructor
  · intro h
    rcases Outcome.bind_eq_error.mp h with hcheck | ⟨_, hchecks, hslices⟩
    · obtain ⟨before, request, after, rfl, hbefore, hrequest⟩ :=
        Outcome.exists_of_forM_eq_error hcheck
      exact .shape (fun earlier hmem => ChunkRequest.checkViews_eq_ok.mp (hbefore earlier hmem))
        (ChunkRequest.checkViews_eq_error.mp hrequest)
    · obtain ⟨before, request, after, rfl, hbefore, hrequest⟩ :=
        Outcome.exists_of_mapM_eq_error hslices
      have hall := Outcome.forM_eq_ok.mp hchecks
      exact .slice (fun other hmem => ChunkRequest.checkViews_eq_ok.mp (hall other hmem))
        (fun earlier hmem => ChunkRequest.exists_toEntry.mp (hbefore earlier hmem))
        (ChunkRequest.toEntry_eq_error.mp hrequest)
  · intro h
    cases h with
    | shape hbefore hrequest =>
      have hcheck := ChunkRequest.checkViews_eq_error.mpr hrequest
      refine Outcome.bind_eq_error.mpr (Or.inl (Outcome.forM_eq_error ?_ hcheck))
      exact fun earlier hmem => ChunkRequest.checkViews_eq_ok.mpr (hbefore earlier hmem)
    | slice hshapes hbefore hrequest =>
      have hentry := ChunkRequest.toEntry_eq_error.mpr hrequest
      refine Outcome.bind_eq_error.mpr (Or.inr ⟨(), ?_, Outcome.mapM_eq_error ?_ hentry⟩)
      · exact Outcome.forM_eq_ok.mpr fun other hmem =>
          ChunkRequest.checkViews_eq_ok.mpr (hshapes other hmem)
      · exact fun earlier hmem => ChunkRequest.exists_toEntry.mpr (hbefore earlier hmem)

/-! ### The entries of a batch -/

/-- A request alone gives one entry, which is that of its own chunk. -/
theorem buildBatch_singleton : buildBatch [request] dropped = .ok entries ↔
    ∃ entry, entries = [entry] ∧ request.checkViews dropped = .ok () ∧
      request.toEntry = .ok entry := by
  rw [buildBatch_eq_ok, List.forall_mem_singleton]
  constructor
  · intro h
    obtain ⟨hcheck, hentries⟩ := h
    cases hentries with
    | cons hentry hrest =>
      cases hrest
      exact ⟨_, rfl, hcheck, hentry⟩
  · intro h
    obtain ⟨entry, rfl, hcheck, hentry⟩ := h
    exact ⟨hcheck, .cons hentry .nil⟩

/-- Each request gives its entry as if it were alone. -/
theorem buildBatch_eq_ok_iff : buildBatch requests dropped = .ok entries ↔
    List.Forall₂ (fun request entry => buildBatch [request] dropped = .ok [entry])
      requests entries := by
  rw [buildBatch_eq_ok, ← List.forall₂_and_left]
  simp only [buildBatch_singleton, List.cons.injEq, and_true, exists_eq_left']

theorem flatten_of_forall₂ {parts : List (List BatchEntry)}
    (h : List.Forall₂ (fun request part => buildBatch [request] dropped = .ok part)
      requests parts) : buildBatch requests dropped = .ok parts.flatten := by
  rw [buildBatch_eq_ok_iff]
  induction h with
  | nil => exact .nil
  | cons hpart _ ih =>
    obtain ⟨entry, rfl, -⟩ := buildBatch_singleton.mp hpart
    exact .cons hpart ih

theorem exists_parts (h : buildBatch requests dropped = .ok entries) :
    ∃ parts, entries = parts.flatten ∧
      List.Forall₂ (fun request part => buildBatch [request] dropped = .ok part)
        requests parts := by
  refine ⟨entries.map ([·]), ?_, ?_⟩
  · rw [← List.flatMap_def, List.flatMap_singleton']
  · rw [List.forall₂_map_right_iff]
    exact buildBatch_eq_ok_iff.mp h

/-- **A batch is built request by request.** It is built if every request can be built alone, and
its entries are then those of the requests, in order, each of the chunk of its request. Else it is
refused with its first fault. -/
theorem buildBatch_compositional (requests : List ChunkRequest) (dropped : DropAxes) :
    ((∃ entries, buildBatch requests dropped = .ok entries) ↔
      ∀ request ∈ requests, ∃ entries, buildBatch [request] dropped = .ok entries) ∧
    (∀ entries, buildBatch requests dropped = .ok entries ↔
      ∃ parts, entries = parts.flatten ∧
        List.Forall₂ (fun request part => buildBatch [request] dropped = .ok part)
          requests parts) ∧
    (∀ request entries, buildBatch [request] dropped = .ok entries →
      ∃ entry, entries = [entry] ∧ entry.chunk = request.chunk) ∧
    ∀ error, buildBatch requests dropped = .error error ↔ FirstFault dropped requests error := by
  have hparts : ∀ entries, buildBatch requests dropped = .ok entries ↔
      ∃ parts, entries = parts.flatten ∧
        List.Forall₂ (fun request part => buildBatch [request] dropped = .ok part)
          requests parts := by
    intro entries
    refine ⟨exists_parts, fun h => ?_⟩
    obtain ⟨parts, rfl, hall⟩ := h
    exact flatten_of_forall₂ hall
  refine ⟨?_, hparts, fun request entries hone => ?_, fun _ => buildBatch_eq_error⟩
  · constructor
    · intro h request hmem
      obtain ⟨entries, hentries⟩ := h
      obtain ⟨parts, -, hall⟩ := exists_parts hentries
      obtain ⟨place, hplace⟩ := List.mem_iff_getElem?.mp hmem
      obtain ⟨part, -, hpart⟩ := exists_of_forall₂ hall hplace
      exact ⟨part, hpart⟩
    · intro hall
      choose! part hpart using hall
      exact ⟨_, flatten_of_forall₂ (List.forall₂_map_right_iff.mpr
        (List.forall₂_same.mpr hpart))⟩
  · obtain ⟨entry, hentries, -, hentry⟩ := buildBatch_singleton.mp hone
    exact ⟨entry, hentries, (ChunkRequest.toEntry_eq_ok.mp hentry).2.2⟩

namespace Mixed

/-- A request without a fault. -/
def fine : ChunkRequest :=
  ⟨⟨"a", [4], "uint8", [0]⟩, [.slice (.unit 0 2)], [.slice (.unit 0 2)]⟩

/-- A request for a buffer of two places that are no run. -/
def gapped : ChunkRequest :=
  ⟨⟨"b", [4], "uint8", [0]⟩, [.slice (.unit 0 2)], [.indexArray (.ofList [0, 2])]⟩

/-- A request whose view of the chunk has lost the only axis. -/
def collapsed : ChunkRequest :=
  ⟨⟨"c", [4], "uint8", [0]⟩, [.integer 1], [.slice (.unit 0 1)]⟩

/-- The collapsed axis is reported although the gap is in front of it. Without the request that
has collapsed, the gap is reported. -/
theorem buildBatch_compositional_mixed :
    FirstFault [] [fine, gapped, collapsed] (.collapsedDimension [1] []) ∧
      buildBatch [fine, gapped, collapsed] [] = .error (.collapsedDimension [1] []) ∧
      FirstFault [] [fine, gapped] (.discontiguous (.gaps [2])) ∧
      buildBatch [fine, gapped] [] = .error (.discontiguous (.gaps [2])) ∧
      ∃ entries, buildBatch [fine, fine] [] = .ok entries := by
  have hfine : ∀ fault, ¬ fine.ShapeFault [] fault := ChunkRequest.checkViews_eq_ok.mp rfl
  have hgapped : ∀ fault, ¬ gapped.ShapeFault [] fault := ChunkRequest.checkViews_eq_ok.mp rfl
  have hshape : FirstFault [] ([fine, gapped] ++ [collapsed]) (.collapsedDimension [1] []) :=
    .shape (List.forall_mem_cons.mpr ⟨hfine, List.forall_mem_singleton.mpr hgapped⟩)
      (.ranks rfl rfl (by decide))
  have hslice : FirstFault [] ([fine] ++ [gapped]) (.discontiguous (.gaps [2])) :=
    .slice (List.forall_mem_cons.mpr ⟨hfine, List.forall_mem_singleton.mpr hgapped⟩)
      (List.forall_mem_singleton.mpr (ChunkRequest.exists_toEntry.mp ⟨_, rfl⟩)) (.out rfl)
  obtain ⟨hbuilt, -, -, -⟩ := buildBatch_compositional [fine, fine] []
  obtain ⟨-, -, -, hmixed⟩ := buildBatch_compositional [fine, gapped, collapsed] []
  obtain ⟨-, -, -, hgap⟩ := buildBatch_compositional [fine, gapped] []
  refine ⟨hshape, (hmixed _).mpr hshape, hslice, (hgap _).mpr hslice, hbuilt.mpr ?_⟩
  exact List.forall_mem_cons.mpr ⟨⟨_, rfl⟩, List.forall_mem_singleton.mpr ⟨_, rfl⟩⟩

end Mixed

end ChunkedArray
