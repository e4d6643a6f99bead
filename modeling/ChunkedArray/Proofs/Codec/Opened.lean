import ChunkedArray.Codec.Stage
import ChunkedArray.Proofs.Store.Parts

/-!
# ChunkedArray.Proofs.Codec.Opened

Parts of opened bytes.

Opening the stored bytes of a chunk stage by stage does without verifying checksums and, up
to the last compression, without reading more than the parts that are asked for. Still, what
the opened bytes stand for (`Opened.Shows`) is what decoding all of them gives
(`openAll_shows`), with nothing opened where nothing is stored.
-/

namespace ChunkedArray

variable {α β σ : Type} {store : Store σ} {key : String} {state after : σ}

theorem Job.run_bind_of_ok {job : Job α} {next : α → Job β} {value : α}
    (h : job.run store state = (.ok value, after)) :
    (job.bind next).run store state = (next value).run store after := by
  rw [run_bind, h]

/-! ### Parts in front of a checksum -/

/-- The range is counted from the start. -/
def ByteRange.FromStart : ByteRange → Prop
  | fromStart _ _ => True
  | suffix _ => False

namespace Stage

theorem checksumRange_of_fromStart {range : ByteRange} (h : range.FromStart) :
    checksumRange range = range := by
  cases range with
  | fromStart offset length => rfl
  | suffix length => exact h.elim

theorem length_stripChecksum (bytes : Bytes) :
    (stripChecksum bytes).length = bytes.length - checksumSize := by
  rw [stripChecksum, List.length_take, Nat.min_eq_left (Nat.sub_le _ _)]

theorem within_of_stripChecksum {range : ByteRange} {bytes : Bytes}
    (h : range.within (stripChecksum bytes).length) : range.within bytes.length := by
  rw [length_stripChecksum] at h
  cases range with
  | fromStart offset length =>
    simp only [ByteRange.within, decide_eq_true_eq] at h ⊢
    omega
  | suffix length =>
    simp only [ByteRange.within, decide_eq_true_eq] at h ⊢
    omega

/-- What is cut from the bytes with the checksum is cut from those without it, up to the
checksum at the end. -/
theorem beforeChecksum_slice {range : ByteRange} {bytes : Bytes} (h : range.FromStart)
    (hwithin : range.within (stripChecksum bytes).length) :
    beforeChecksum range (range.slice bytes) = range.slice (stripChecksum bytes) := by
  rw [length_stripChecksum] at hwithin
  cases range with
  | fromStart offset length =>
    simp only [ByteRange.within, decide_eq_true_eq] at hwithin
    cases length with
    | none =>
      rw [Option.getD_none] at hwithin
      simp only [beforeChecksum, ByteRange.slice, stripChecksum, List.drop_take, List.length_drop]
      congr 1
      omega
    | some length =>
      rw [Option.getD_some] at hwithin
      simp only [beforeChecksum, ByteRange.slice, stripChecksum, List.drop_take, List.take_take]
      congr 1
      omega
  | suffix length => exact h.elim

/-! ### Opened bytes -/

/-- What the parts of opened bytes are: nothing if there are no bytes, else what is cut from
the bytes. -/
def Opened.Shows (store : Store σ) (key : String) (state : σ) (opened : Opened) :
    Option Bytes → Prop
  | none => ∀ ranges, ((opened.read key ranges).run store state).1 = .ok none
  | some bytes => ∀ ranges : List ByteRange,
    (∀ range ∈ ranges, range.FromStart ∧ range.within bytes.length) →
    ((opened.read key ranges).run store state).1 = .ok (some (ranges.map (ByteRange.slice bytes)))

theorem held_shows (store : Store σ) (key : String) (state : σ) (content : Option Bytes) :
    (Opened.held content).Shows store key state content := by
  cases content with
  | none => exact fun _ => rfl
  | some bytes =>
    intro ranges hranges
    have hparts : ByteRange.extract bytes ranges = .ok (ranges.map (ByteRange.slice bytes)) :=
      ByteRange.extract_eq_ok.mpr ⟨fun range hrange => (hranges range hrange).2, rfl⟩
    simp only [Opened.read, hparts]
    rfl

theorem checked_shows {opened : Opened} {content : Option Bytes}
    (h : opened.Shows store key state content) :
    (Opened.checked opened).Shows store key state (content.map stripChecksum) := by
  cases content with
  | none =>
    intro ranges
    rw [Opened.read, Job.bind_eq, Job.run_bind_of_ok (Prod.ext (h (ranges.map checksumRange)) rfl)]
    rfl
  | some bytes =>
    intro ranges hranges
    have hsame : ranges.map checksumRange = ranges := by
      conv => rhs; rw [← List.map_id ranges]
      exact List.map_congr_left fun range hrange =>
        checksumRange_of_fromStart (hranges range hrange).1
    have hread := h ranges fun range hrange =>
      ⟨(hranges range hrange).1, within_of_stripChecksum (hranges range hrange).2⟩
    have hparts : ranges.zipWith beforeChecksum (ranges.map (ByteRange.slice bytes)) =
        ranges.map (ByteRange.slice (stripChecksum bytes)) := by
      rw [List.zipWith_map_right, List.zipWith_self]
      exact List.map_congr_left fun range hrange =>
        beforeChecksum_slice (hranges range hrange).1 (hranges range hrange).2
    rw [Opened.read, hsame, Job.bind_eq, Job.run_bind_of_ok (Prod.ext hread rfl)]
    exact congrArg (fun parts => Except.ok (some parts)) hparts

theorem stored_shows (hstore : store.CutsParts) {stored : Option Bytes}
    (hstored : (store.answer (.get key) state).1 = .ok stored)
    (hlength : ∀ encoded, stored = some encoded → encoded.length ≤ FileTree.largestOffset) :
    Opened.stored.Shows store key state stored := by
  cases stored with
  | none =>
    intro ranges
    rw [Opened.read, Job.run_mapError, Job.run_ofCall, hstore.absent key ranges state hstored]
    rfl
  | some encoded =>
    intro ranges hranges
    rw [Opened.read, Job.run_mapError, Job.run_ofCall, hstore.present key ranges state encoded
      hstored (hlength encoded rfl) fun range hrange => (hranges range hrange).2]
    rfl

/-! ### Opening and decoding -/

/-- What is in front of a row of stages if something is stored behind them. -/
def decodeStored (validates : Bool) (stages : List Stage) :
    Option Bytes → Except CodecFault (Option Bytes)
  | none => .ok none
  | some encoded => (decodeAll validates stages encoded).map some

theorem decodeAll_cons (validates : Bool) (stage : Stage) (stages : List Stage) (bytes : Bytes) :
    decodeAll validates (stage :: stages) bytes =
      decodeAll validates stages bytes >>= stage.decode validates := by
  rw [decodeAll, List.reverse_cons, List.foldlM_append]
  simp only [List.foldlM_cons, List.foldlM_nil, bind_pure]
  rfl

/-- The last stage to be decoded is the first of the row. -/
theorem decodeStored_cons {validates : Bool} {stage : Stage} {stages : List Stage}
    {stored content : Option Bytes}
    (h : decodeStored validates (stage :: stages) stored = .ok content) :
    ∃ inner, decodeStored validates stages stored = .ok inner ∧
      (inner = none ∧ content = none ∨
        ∃ bytes result, inner = some bytes ∧ stage.decode validates bytes = .ok result ∧
          content = some result) := by
  cases stored with
  | none => exact ⟨none, rfl, Or.inl ⟨rfl, (Except.ok.inj h).symm⟩⟩
  | some encoded =>
    rw [decodeStored, decodeAll_cons] at h
    obtain ⟨result, hresult, rfl⟩ := Outcome.map_eq_ok.mp h
    obtain ⟨bytes, hbytes, hdecode⟩ := Outcome.bind_eq_ok.mp hresult
    refine ⟨some bytes, ?_, Or.inr ⟨bytes, result, rfl, hdecode, rfl⟩⟩
    rw [decodeStored, hbytes]
    rfl

theorem stripChecksum_of_decode {validates : Bool} {bytes result : Bytes}
    (h : decode validates crc32c bytes = .ok result) : stripChecksum bytes = result := by
  simp only [decode] at h
  split at h
  · cases h
  split at h
  · cases h
  · exact Except.ok.inj h

/-- **Opening shows what decoding gives.** -/
theorem openAll_shows (hstore : store.CutsParts) {stored : Option Bytes}
    (hstored : (store.answer (.get key) state).1 = .ok stored)
    (hlength : ∀ encoded, stored = some encoded → encoded.length ≤ FileTree.largestOffset)
    {validates : Bool} {stages : List Stage} {content : Option Bytes}
    (hdecode : decodeStored validates stages stored = .ok content) :
    ∃ opened after, (openAll key stages).run store state = (.ok opened, after) ∧
      opened.Shows store key after content := by
  induction stages generalizing content with
  | nil =>
    obtain rfl : content = stored := by
      cases stored <;> exact (Except.ok.inj hdecode).symm
    exact ⟨.stored, state, rfl, stored_shows hstore hstored hlength⟩
  | cons stage stages ih =>
    obtain ⟨inner, hinner, hcontent⟩ := decodeStored_cons hdecode
    obtain ⟨opened, after, hopen, hshows⟩ := ih hinner
    cases stage with
    | crc32c =>
      refine ⟨.checked opened, after, ?_, ?_⟩
      · rw [openAll, Job.bind_eq, Job.run_bind_of_ok hopen]
        rfl
      · have hstrip : content = inner.map stripChecksum := by
          rcases hcontent with ⟨rfl, rfl⟩ | ⟨bytes, result, rfl, hresult, rfl⟩
          · rfl
          · rw [← stripChecksum_of_decode hresult]
            rfl
        rw [hstrip]
        exact checked_shows hshows
    | gzip =>
      -- all bytes are read and decompressed here
      refine ⟨.held content, ((opened.read key allBytes).run store after).2, ?_, held_shows ..⟩
      rw [openAll, Job.bind_eq, Job.run_bind_of_ok hopen]
      rcases hcontent with ⟨rfl, rfl⟩ | ⟨bytes, result, rfl, hresult, rfl⟩
      · rw [Job.bind_eq, Job.run_bind_of_ok (Prod.ext (hshows allBytes) rfl)]
        rfl
      · have hall : ∀ range ∈ allBytes, range.FromStart ∧ range.within bytes.length := by
          intro range hrange
          obtain rfl := List.mem_singleton.mp hrange
          exact ⟨True.intro, by simp [ByteRange.within]⟩
        rw [Job.bind_eq, Job.run_bind_of_ok (Prod.ext (hshows allBytes hall) rfl)]
        have hwhole : (allBytes.map (ByteRange.slice bytes)).flatten = bytes :=
          List.flatten_singleton
        rw [decode, Outcome.mapError_eq_ok] at hresult
        simp only [hwhole, hresult]
        rfl

end Stage

end ChunkedArray
