import ChunkedArray.Proofs.Selection.Axes
import ChunkedArray.Proofs.Selection.Run

/-!
# ChunkedArray.Proofs.Selection.Denotation

What a selection means, and the box that it becomes.

A selection denotes the coordinates whose positions are selected by the selectors of their
axes, as the host reads them (`Selection.Denotes`). A plain selection that has a shape
becomes slices of a box with just these coordinates (`Selection.Plain.resolves`). The shape
is that of the box, without the axes that an integer takes.
-/

namespace ChunkedArray

/-! ### The meaning of selections -/

/-- The positions of an axis that a selector selects. -/
def Selector.Selects (selector : Selector) (length position : Nat) : Prop :=
  match selector with
  | slice range => range.Selects length position
  | selector => ∃ listed ∈ selector.listed, hostPosition length listed = position

namespace Selection

/-- The selection of an array of `shape` has an element at the coordinate. -/
def Denotes (selection : Selection) (shape : Shape) (coordinate : Coordinate) : Prop :=
  List.Forall₂ (fun axis position => axis.1.Selects axis.2.toNat position)
    ((hostAxes selection shape.length).zip shape) coordinate

/-- Integers on their axes, slices, one ellipsis at most, and in front of them at most one
run of positions as a one-dimensional index array. -/
structure Plain (selection : Selection) (shape : Shape) : Prop where
  /-- There are not more selectors than axes, an ellipsis apart. -/
  rank : (selection.filter (!·.isEllipsis)).length ≤ shape.length
  ellipses : selection.countP Selector.isEllipsis ≤ 1
  arrays : indexArrays selection.tail = []
  flat : ∀ array ∈ indexArrays selection, array.shape = [array.positions.length.toUInt64]
  runs : ∀ selector ∈ selection, IsRun selector.listed
  /-- Each position is on its axis, and counted from the start. -/
  onAxis : ∀ axis ∈ (hostAxes selection shape.length).zip shape,
    OnAxis axis.2.toNat axis.1.listed

end Selection

/-! ### The slices of axes -/

/-- On an axis of the length, the selector has become a slice for the same positions. -/
structure Selector.SlicedAs (selector : Selector) (length : UInt64) (slice : Slice) : Prop where
  toSlice : selector.toSlice = .ok slice
  step : slice.stepOrDefault = 1
  mem_positions : ∀ position,
    position ∈ (slice.onAxis length).positions ↔ selector.Selects length.toNat position

theorem Selector.exists_slicedAs {selector : Selector} {length : UInt64}
    (hlength : length.toNat ≤ Int64.maxValue.toInt.toNat) (hellipsis : selector ≠ .ellipsis)
    (hunit : ∀ range, selector = .slice range → range.stepOrDefault = 1)
    (hrun : IsRun selector.listed)
    (haxis : OnAxis length.toNat selector.listed) :
    ∃ slice, selector.SlicedAs length slice := by
  cases hlisted : selector.listed with
  | cons first rest =>
    rw [hlisted] at hrun haxis
    refine ⟨runSlice first rest, selector.toSlice_of_listed hlisted hrun, rfl, ?_⟩
    intro position
    have hselects : selector.Selects length.toNat position ↔
        ∃ listed ∈ first :: rest, hostPosition length.toNat listed = position := by
      rw [← hlisted]
      cases selector with
      | slice | ellipsis => cases hlisted
      | integer | indexArray => rfl
    rw [hrun.mem_positions hlength haxis, hselects]
    refine exists_congr fun listed => and_congr_right fun hmem => ?_
    have hnonneg := (haxis listed hmem).1
    rw [hostPosition, if_neg (by omega)]
  | nil =>
    cases selector with
    | integer => cases hlisted
    | ellipsis => exact absurd rfl hellipsis
    | slice range =>
      have hstep := hunit range rfl
      exact ⟨range, rfl, hstep, fun _ => Slice.mem_positions_onAxis hlength (Slice.stepOrDefault_pos hstep)⟩
    | indexArray array =>
      obtain ⟨positions, shape⟩ := array
      obtain rfl : positions = [] := hlisted
      refine ⟨.unit 0 0, rfl, rfl, ?_⟩
      intro position
      rw [Slice.positions_onAxis rfl]
      simp [Slice.onAxis, Slice.unit, Slice.clampBound, Selects, listed]

theorem Selector.forall₂_slicedAs {axes : List Selector} {shape : Shape} {slices : List Slice}
    (hlength : axes.length = shape.length)
    (hslices : List.Forall₂ (fun selector slice => selector.toSlice = .ok slice) axes slices)
    (haxes : ∀ axis ∈ axes.zip shape, ∃ slice, axis.1.SlicedAs axis.2 slice) :
    List.Forall₂ (fun axis slice => axis.1.SlicedAs axis.2 slice) (axes.zip shape) slices := by
  induction hslices generalizing shape with
  | nil => exact .nil
  | @cons selector slice axes slices hslice _ ih =>
    cases shape with
    | nil => cases hlength
    | cons length shape =>
      obtain ⟨other, hother⟩ := haxes (selector, length) List.mem_cons_self
      obtain rfl : other = slice := Except.ok.inj (hother.toSlice.symm.trans hslice)
      exact .cons hother (ih (Nat.succ.inj hlength)
        (List.forall_mem_of_forall_mem_cons haxes))

/-! ### The box of axes -/

theorem Box.mem_coordinates_cons {span : Span} {box : Box} {coordinate : Coordinate} :
    coordinate ∈ Box.coordinates (span :: box) ↔
      ∃ position rest, coordinate = position :: rest ∧ position ∈ span.positions ∧
        rest ∈ Box.coordinates box := by
  simp only [coordinates, List.mem_flatMap, List.mem_map]
  constructor
  · rintro ⟨position, hposition, rest, hrest, rfl⟩
    exact ⟨position, rest, rfl, hposition, hrest⟩
  · rintro ⟨position, rest, rfl, hposition, hrest⟩
    exact ⟨position, hposition, rest, hrest, rfl⟩

theorem Slice.exists_toSpan {slice : Slice} (hstep : slice.stepOrDefault = 1) (length : UInt64) :
    ∃ span, slice.toSpan length = .ok span ∧
      span.length = (slice.onAxis length).count.toUInt64 := by
  have hone : (slice.onAxis length).step = 1 := hstep
  have hok : ∃ span, slice.toSpan length = .ok span := by
    rw [toSpan, if_pos hone]
    exact ⟨_, rfl⟩
  obtain ⟨span, hspan⟩ := hok
  refine ⟨span, hspan, ?_⟩
  rw [← Stretch.length_positions, ← (toSpan_eq_ok hspan).2, Span.length_positions]
  exact UInt64.ofNat_toNat.symm

/-- The box of slices for all axes has the coordinates that the selectors select. -/
theorem exists_box {axes : List Selector} {shape : Shape} {slices : List Slice}
    (hlength : axes.length = shape.length)
    (h : List.Forall₂ (fun axis slice => axis.1.SlicedAs axis.2 slice) (axes.zip shape) slices) :
    ∃ box, Box.ofAxes slices shape = .ok box ∧ box.lengths = slicedLengths slices shape ∧
      ∀ coordinate, coordinate ∈ box.coordinates ↔
        List.Forall₂ (fun axis position => axis.1.Selects axis.2.toNat position)
          (axes.zip shape) coordinate := by
  induction axes generalizing shape slices with
  | nil =>
    obtain rfl : shape = [] := List.length_eq_zero_iff.mp hlength.symm
    cases h
    refine ⟨[], rfl, rfl, fun coordinate => ?_⟩
    simp [Box.coordinates]
  | cons axis axes ih =>
    cases shape with
    | nil => cases hlength
    | cons length shape =>
      cases h with
      | @cons _ slice _ slices hslice hrest =>
        obtain ⟨box, hbox, hlengths, hcoordinates⟩ := ih (Nat.succ.inj hlength) hrest
        obtain ⟨span, hspan, hcount⟩ := Slice.exists_toSpan hslice.step length
        refine ⟨span :: box, ?_, ?_, fun coordinate => ?_⟩
        · rw [Box.ofAxes, hspan, hbox]
          rfl
        · exact congrArg₂ List.cons hcount hlengths
        · rw [Box.mem_coordinates_cons, List.zip_cons_cons, List.forall₂_cons_left_iff,
            (Slice.toSpan_eq_ok hspan).2]
          simp only [hslice.mem_positions, hcoordinates]
          constructor
          · rintro ⟨position, rest, rfl, hposition, hrest⟩
            exact ⟨position, rest, hposition, hrest, rfl⟩
          · rintro ⟨position, rest, hposition, hrest, rfl⟩
            exact ⟨position, rest, rfl, hposition, hrest⟩

/-- Whole axes at the end need no slices. -/
theorem Box.ofAxes_append_full {slices : List Slice} {shape : Shape}
    (hshape : Shape.Addressable shape) (hrank : slices.length ≤ shape.length) :
    ofAxes (slices ++ List.replicate (shape.length - slices.length) .full) shape =
      ofAxes slices shape := by
  induction shape generalizing slices with
  | nil =>
    obtain rfl : slices = [] := List.length_eq_zero_iff.mp (Nat.le_zero.mp hrank)
    rfl
  | cons length shape ih =>
    have hrest : Shape.Addressable shape :=
      fun other hmem => hshape other (List.mem_cons_of_mem _ hmem)
    cases slices with
    | nil =>
      have hfull : Slice.full.toSpan length = .ok (Span.whole length) := by
        have hmeasurable := measurable_eq (hshape length List.mem_cons_self)
        simp [Slice.toSpan, Slice.full, Slice.onAxis, hmeasurable, Slice.stepOrDefault, Span.whole]
      have hwhole : ofAxes ([] ++ List.replicate (shape.length - 0) .full) shape =
          ofAxes [] shape := ih hrest (Nat.zero_le _)
      simp only [List.nil_append, List.length_nil, Nat.sub_zero, ofAxes_nil] at hwhole ⊢
      rw [List.length_cons, List.replicate_succ, ofAxes, hfull, hwhole]
      rfl
    | cons slice slices =>
      have hsame := ih hrest (Nat.le_of_succ_le_succ hrank)
      rw [List.length_cons, List.length_cons, Nat.add_sub_add_right, List.cons_append, ofAxes,
        hsame, ofAxes]

namespace Selection

variable {selection axes : Selection} {shape result : Shape} {fill : Nat}
  {state reached : Progress} {slices : List Slice}

/-! ### Plain selections -/

/-- An index array lists as many positions as its slice selects. -/
theorem count_of_indexArray {array : IndexArray} {length : UInt64} {slice : Slice}
    (hlength : length.toNat ≤ Int64.maxValue.toInt.toNat) (hrun : IsRun array.positions)
    (haxis : OnAxis length.toNat array.positions)
    (hslice : array.toSlice = .ok slice) :
    (slice.onAxis length).count = array.positions.length := by
  obtain ⟨positions, shape⟩ := array
  cases positions with
  | nil =>
    obtain rfl : .unit 0 0 = slice := Except.ok.inj hslice
    simp [Slice.onAxis, Slice.unit, Slice.clampBound, Stretch.count]
  | cons first rest =>
    rw [hrun.toSlice_eq] at hslice
    obtain rfl := Except.ok.inj hslice
    rw [← Stretch.length_positions, hrun.positions_of_nonneg hlength haxis, List.length_map]

namespace Plain

variable (hplain : Plain selection shape)

include hplain

/-- The only index array is the one of the first axis. -/
theorem hostAxes_cases :
    indexArrays (hostAxes selection shape.length) = [] ∨
      ∃ array axes, hostAxes selection shape.length = .indexArray array :: axes ∧
        indexArrays axes = [] ∧ indexArrays selection = [array] := by
  have harrays := indexArrays_hostAxes hplain.rank hplain.ellipses
  have htail := hplain.arrays
  cases selection with
  | nil => exact Or.inl harrays
  | cons selector rest =>
    cases selector with
    | ellipsis | integer | slice => exact Or.inl (harrays.trans htail)
    | indexArray array =>
      refine Or.inr ⟨array, _, rfl, ?_, ?_⟩
      · exact (List.cons.inj harrays).2.trans htail
      · exact congrArg (array :: ·) htail

/-- Each axis has become the slice of its selector. -/
theorem slicedAs (hshape : Shape.Addressable shape)
    (hwalk : Walks shape fill (hostAxes selection shape.length) state reached)
    (hslices : List.Forall₂ (fun selector slice => selector.toSlice = .ok slice)
      (hostAxes selection shape.length) slices) :
    List.Forall₂ (fun axis slice => axis.1.SlicedAs axis.2 slice)
      ((hostAxes selection shape.length).zip shape) slices := by
  refine Selector.forall₂_slicedAs (length_hostAxes hplain.rank hplain.ellipses) hslices ?_
  rintro ⟨selector, length⟩ hmem
  obtain ⟨hselector, hlength⟩ := List.of_mem_zip hmem
  refine Selector.exists_slicedAs (hshape length hlength) ?_ ?_ ?_ (hplain.onAxis _ hmem)
  · rintro rfl
    exact ellipsis_not_mem_hostAxes hplain.rank hplain.ellipses hselector
  · rintro range rfl
    exact hwalk.step_eq_one range hselector
  · rcases mem_hostAxes hplain.rank hplain.ellipses hselector with hin | rfl
    · exact hplain.runs selector hin
    · exact .nil

/-- The walk over all axes adds their lengths, those of integers left out. -/
theorem lengths_of_walk {block : Progress} (hshape : Shape.Addressable shape)
    (hblock : arrayBlock selection = .ok block)
    (hwalk : Walks shape fill (hostAxes selection shape.length) block reached)
    (hslices : List.Forall₂ (fun selector slice => selector.toSlice = .ok slice)
      (hostAxes selection shape.length) slices) :
    reached.lengths =
      keptLengths (hostAxes selection shape.length) (slicedLengths slices shape) := by
  have hellipsis := ellipsis_not_mem_hostAxes hplain.rank hplain.ellipses
  have hlength := length_hostAxes hplain.rank hplain.ellipses
  have haxis := hplain.onAxis
  rcases hplain.hostAxes_cases with harrays | ⟨array, axes, haxes, harrays, harray⟩
  · have hnone : indexArrays selection = [] :=
      (indexArrays_hostAxes hplain.rank hplain.ellipses).symm.trans harrays
    obtain rfl : ⟨[], 0⟩ = block := Except.ok.inj ((arrayBlock_nil hnone).symm.trans hblock)
    exact hwalk.lengths_eq harrays hellipsis hslices ((Nat.zero_add _).trans hlength)
  · have hrun : IsRun array.positions := by
      have hin : .indexArray array ∈ selection :=
        mem_of_mem_indexArrays (by rw [harray]; exact List.mem_cons_self)
      exact hplain.runs _ hin
    have hflat := hplain.flat array (by rw [harray]; exact List.mem_cons_self)
    obtain rfl : ⟨_, 1⟩ = block :=
      Except.ok.inj ((arrayBlock_singleton harray hflat).symm.trans hblock)
    rw [haxes] at hwalk hslices hellipsis hlength haxis ⊢
    obtain ⟨length, shape, rfl⟩ := List.exists_cons_of_length_eq_add_one hlength.symm
    obtain ⟨slice, slices, hslice, hrest, rfl⟩ := List.forall₂_cons_left_iff.mp hslices
    cases hwalk with
    | cons hread hwalk =>
      cases hread
      have hcount : (slice.onAxis length).count = array.positions.length :=
        count_of_indexArray (hshape length List.mem_cons_self) hrun
          (haxis _ List.mem_cons_self) hslice
      have hnone := List.not_mem_of_not_mem_cons hellipsis
      rw [hwalk.lengths_eq harrays hnone hrest ((Nat.add_comm _ _).trans hlength),
        slicedLengths_cons, keptLengths_cons, hcount]
      rfl

/-- **A plain selection that has a shape becomes slices of a box with the coordinates that
it denotes.** The shape is that of the box, without the axes that an integer takes. -/
theorem resolves {result : Shape} (hshape : Shape.Addressable shape)
    (hresult : resultShape shape selection [] true = .ok result)
    (hslices : toSlices (expandEllipsis selection shape.length) = .ok slices) :
    ∃ box, Box.ofSlices slices shape = .ok box ∧
      (∀ coordinate, coordinate ∈ box.coordinates ↔ Denotes selection shape coordinate) ∧
      result = keptLengths (hostAxes selection shape.length) box.lengths := by
  obtain ⟨fill, block, reached, hblock, hwalk, rfl⟩ :=
    exists_walk_hostAxes hplain.rank hplain.ellipses hshape hresult
  have hexpanded := (toSlices_eq_ok.mp hslices).1
  have hle : slices.length ≤ shape.length :=
    hexpanded.length_eq ▸ length_expandEllipsis_le hplain.rank hplain.ellipses
  have haxes : List.Forall₂ (fun selector slice => selector.toSlice = .ok slice)
      (hostAxes selection shape.length)
      (slices ++ List.replicate (shape.length - slices.length) .full) := by
    rw [hostAxes_eq hplain.rank hplain.ellipses, hexpanded.length_eq]
    refine List.rel_append hexpanded ?_
    generalize shape.length - slices.length = count
    induction count with
    | zero => exact .nil
    | succ count ih => exact .cons rfl ih
  obtain ⟨box, hbox, hlengths, hcoordinates⟩ := exists_box
    (length_hostAxes hplain.rank hplain.ellipses) (hplain.slicedAs hshape hwalk haxes)
  refine ⟨box, ?_, hcoordinates, ?_⟩
  · rw [Box.ofSlices, if_neg (Nat.not_lt.mpr hle), ← hbox, Box.ofAxes_append_full hshape hle]
  · rw [hlengths, hplain.lengths_of_walk hshape hblock hwalk haxes]

end Plain

end Selection

end ChunkedArray
