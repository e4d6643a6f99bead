import ChunkedArray.Proofs.Selection.Axes

/-!
# ChunkedArray.Proofs.Selection.FullSlice

Axes that no slice is given for, against axes that a full slice is given for.

The first are taken at their length; the slice is measured, and measuring ends where
positions end. So a full slice takes its axis whole just if all elements of the axis have a
position (`toUInt64_measurable_iff`). Regions (`Box.ofSlices`) and shapes
(`Selection.resultShape`) inherit that from the one axis on which they can differ.
-/

namespace ChunkedArray

namespace Slice

/-- A full slice takes the part of an axis that is measured. -/
theorem toSpan_full (length : UInt64) :
    full.toSpan length = .ok ⟨0, (measurable length).toUInt64⟩ := by
  have hstep : (full.onAxis length).step = 1 := rfl
  rw [toSpan, if_pos hstep]
  simp [onAxis, full]

end Slice

/-! ### Regions -/

namespace Box

variable {slices : List Slice} {shape : Shape} {box : Box}

/-- A full slice for the first axis that is not mentioned gives a box in any case. -/
theorem exists_ofAxes_append_full (hlt : slices.length < shape.length)
    (h : ofAxes slices shape = .ok box) :
    ∃ appended, ofAxes (slices ++ [.full]) shape = .ok appended ∧
      (appended = box ↔ shape[slices.length].toNat ≤ Int64.maxValue.toInt.toNat) := by
  induction slices generalizing shape box with
  | nil =>
    cases shape with
    | nil => cases hlt
    | cons length shape =>
      obtain rfl : whole (length :: shape) = box := Except.ok.inj h
      refine ⟨⟨0, (measurable length).toUInt64⟩ :: whole shape, ?_, ?_⟩
      · simp only [List.nil_append, ofAxes, Slice.toSpan_full]
        rfl
      · rw [← toUInt64_measurable_iff]
        simp [whole, Span.whole]
  | cons slice slices ih =>
    cases shape with
    | nil => cases hlt
    | cons length shape =>
      simp only [ofAxes, Outcome.bind_eq_ok, Outcome.pure_eq_ok] at h
      obtain ⟨span, hspan, rest, hrest, rfl⟩ := h
      -- the first axis has the same span with the appended slice and without it
      obtain ⟨appended, happended, hsame⟩ := ih (Nat.lt_of_succ_lt_succ hlt) hrest
      refine ⟨span :: appended, ?_, ?_⟩
      · simp only [List.cons_append, ofAxes, hspan, happended]
        rfl
      · simpa using hsame

theorem exists_ofSlices_append_full (hlt : slices.length < shape.length)
    (h : ofSlices slices shape = .ok box) :
    ∃ appended, ofSlices (slices ++ [.full]) shape = .ok appended ∧
      (appended = box ↔ shape[slices.length].toNat ≤ Int64.maxValue.toInt.toNat) := by
  obtain ⟨appended, happended, hsame⟩ := exists_ofAxes_append_full hlt (ofSlices_eq_ok h).2
  refine ⟨appended, ?_, hsame⟩
  rw [ofSlices, if_neg (by simpa using Nat.succ_le_of_lt hlt), happended]

theorem exists_ofAxes_replicate_full (shape : Shape) :
    ∃ box, ofAxes (List.replicate shape.length .full) shape = .ok box ∧
      (box = whole shape ↔ shape.Addressable) := by
  induction shape with
  | nil => exact ⟨[], rfl, by simp [whole, Shape.Addressable]⟩
  | cons length shape ih =>
    obtain ⟨box, hbox, hwhole⟩ := ih
    refine ⟨⟨0, (measurable length).toUInt64⟩ :: box, ?_, ?_⟩
    · simp only [List.length_cons, List.replicate_succ, ofAxes, Slice.toSpan_full, hbox]
      rfl
    · rw [Shape.Addressable, List.forall_mem_cons, ← toUInt64_measurable_iff,
        ← Shape.Addressable, ← hwhole]
      simp [whole, Span.whole]

/-- Full slices for all axes give a box, which is the whole array just if all its elements have
positions. -/
theorem exists_ofSlices_replicate_full (shape : Shape) :
    ∃ box, ofSlices (List.replicate shape.length .full) shape = .ok box ∧
      (box.covers shape ↔ shape.Addressable) := by
  obtain ⟨box, hbox, hwhole⟩ := exists_ofAxes_replicate_full shape
  refine ⟨box, ?_, ?_⟩
  · rw [ofSlices, if_neg (by simp), hbox]
  · rw [covers_iff, hwhole]

end Box

/-! ### Shapes -/

namespace Selection

variable {slices : List Slice} {shape : Shape} {dropped : DropAxes}

/-- One length of a shape is kept if it is not at a position that is dropped. -/
theorem withoutAxes_append_cons_iff (dropped : DropAxes) (front back : Shape)
    (length other : UInt64) :
    withoutAxes dropped (front ++ length :: back) = withoutAxes dropped (front ++ other :: back) ↔
      length = other ∨ front.length ∈ dropped := by
  by_cases hmem : front.length ∈ dropped <;>
    simp [withoutAxes, List.zipIdx_append, List.zipIdx_cons, List.filter_append, hmem]

theorem slicedLengths_concat (slice : Slice) (hlt : slices.length < shape.length) :
    slicedLengths (slices ++ [slice]) shape = slicedLengths slices shape ++
      [(slice.onAxis shape[slices.length]).count.toUInt64] := by
  induction slices generalizing shape with
  | nil =>
    cases shape with
    | nil => cases hlt
    | cons length shape => simp [slicedLengths]
  | cons first slices ih =>
    cases shape with
    | nil => cases hlt
    | cons length shape =>
      simp only [List.cons_append, slicedLengths_cons, List.cons.injEq, true_and]
      exact ih (Nat.lt_of_succ_lt_succ hlt)

/-- Slices of unit step are read one axis after another. -/
theorem walks_slices {fill : Nat} {state : Progress}
    (hunit : ∀ slice ∈ slices, slice.stepOrDefault = 1)
    (hroom : state.cursor + slices.length ≤ shape.length) :
    Walks shape fill (slices.map .slice) state
      ⟨state.lengths ++ slicedLengths slices (shape.drop state.cursor),
        state.cursor + slices.length⟩ := by
  induction slices generalizing state with
  | nil => simpa [slicedLengths] using Walks.nil state
  | cons slice slices ih =>
    have hlt : state.cursor < shape.length := by
      rw [List.length_cons] at hroom
      omega
    obtain ⟨hstep, hunit⟩ := List.forall_mem_cons.mp hunit
    let next : Progress := ⟨state.lengths ++ [(slice.onAxis shape[state.cursor]).count.toUInt64],
      state.cursor + 1⟩
    have hnext : next.cursor + slices.length ≤ shape.length := by
      show state.cursor + 1 + slices.length ≤ shape.length
      rw [List.length_cons] at hroom
      omega
    have hrest := ih hunit hnext
    refine .cons (.slice state hstep (List.getElem?_eq_getElem hlt)) ?_
    rw [List.drop_eq_getElem_cons hlt, slicedLengths_cons]
    simpa [next, Nat.add_assoc, Nat.add_comm 1] using hrest

theorem indexArrays_slices (slices : List Slice) : indexArrays (slices.map .slice) = [] := by
  induction slices with
  | nil => rfl
  | cons slice slices ih => exact ih

/-- The shape of slices of unit step: the lengths that they keep, and those of the axes behind
them. -/
theorem resultShape_slices (hunit : ∀ slice ∈ slices, slice.stepOrDefault = 1)
    (hroom : slices.length ≤ shape.length) (dropped : DropAxes) :
    resultShape shape (slices.map .slice) dropped true =
      .ok (withoutAxes dropped (slicedLengths slices shape ++ shape.drop slices.length)) := by
  refine resultShape_eq_ok_iff.mpr ⟨_, _, arrayBlock_nil (indexArrays_slices slices),
    walks_slices hunit (by simpa using hroom), ?_⟩
  simp

/-- A full slice for the first axis that is not mentioned gives a shape in any case. -/
theorem exists_resultShape_append_full (hlt : slices.length < shape.length)
    (hunit : ∀ slice ∈ slices, slice.stepOrDefault = 1) (dropped : DropAxes) :
    ∃ omitted appended, resultShape shape (slices.map .slice) dropped true = .ok omitted ∧
      resultShape shape ((slices ++ [Slice.full]).map .slice) dropped true = .ok appended ∧
      (appended = omitted ↔ shape[slices.length].toNat ≤ Int64.maxValue.toInt.toNat ∨
        slices.length ∈ dropped) := by
  have hunit' : ∀ slice ∈ slices ++ [Slice.full], slice.stepOrDefault = 1 := by
    intro slice hmem
    rcases List.mem_append.mp hmem with hslice | hfull
    · exact hunit slice hslice
    · rw [List.mem_singleton.mp hfull]
      rfl
  have hroom : (slices ++ [Slice.full]).length ≤ shape.length := by
    simpa using Nat.succ_le_of_lt hlt
  have hkept : (slicedLengths slices shape).length = slices.length := by
    simp [slicedLengths, Nat.min_eq_left (Nat.le_of_lt hlt)]
  refine ⟨_, _, resultShape_slices hunit (Nat.le_of_lt hlt) dropped,
    resultShape_slices hunit' hroom dropped, ?_⟩
  -- the two shapes differ in one length, which stands at the place of the axis
  rw [slicedLengths_concat _ hlt, Slice.count_onAxis_full, List.drop_eq_getElem_cons hlt,
    List.append_assoc, List.singleton_append, List.length_append, List.length_singleton,
    withoutAxes_append_cons_iff, hkept, toUInt64_measurable_iff]

end Selection

/-! ### Omitted axes -/

/-- **A full slice for the first omitted axis changes nothing just if all elements of the axis
have a position.** It gives a region in any case, and a shape where all slices are of unit step;
the shape is also the same where the axis is dropped. Full slices for all axes cover the array
just if all its elements have positions. -/
theorem full_slice_iff_omitted (shape : Shape) :
    (∀ (slices : List Slice) (box : Box) (hlt : slices.length < shape.length),
      Box.ofSlices slices shape = .ok box →
      ∃ appended, Box.ofSlices (slices ++ [.full]) shape = .ok appended ∧
        (appended = box ↔ shape[slices.length].toNat ≤ Int64.maxValue.toInt.toNat)) ∧
    (∀ (slices : List Slice) (dropped : DropAxes) (hlt : slices.length < shape.length),
      (∀ slice ∈ slices, slice.stepOrDefault = 1) →
      ∃ omitted appended,
        Selection.resultShape shape (slices.map .slice) dropped true = .ok omitted ∧
        Selection.resultShape shape ((slices ++ [Slice.full]).map .slice) dropped true =
          .ok appended ∧
        (appended = omitted ↔ shape[slices.length].toNat ≤ Int64.maxValue.toInt.toNat ∨
          slices.length ∈ dropped)) ∧
    ∃ box, Box.ofSlices (List.replicate shape.length .full) shape = .ok box ∧
      (box.covers shape ↔ shape.Addressable) :=
  ⟨fun _ _ hlt hbox => Box.exists_ofSlices_append_full hlt hbox,
    fun _ dropped hlt hunit => Selection.exists_resultShape_append_full hlt hunit dropped,
    Box.exists_ofSlices_replicate_full shape⟩

/-- The columns of two rows are taken whole with a full slice and without it. -/
theorem full_slice_iff_omitted_columns :
    Box.ofSlices [.unit 1 3] [4, 5] = .ok [⟨1, 2⟩, ⟨0, 5⟩] ∧
      Box.ofSlices [.unit 1 3, .full] [4, 5] = .ok [⟨1, 2⟩, ⟨0, 5⟩] ∧
      Selection.resultShape [4, 5] [.slice (.unit 1 3)] [] true =
        Selection.resultShape [4, 5] [.slice (.unit 1 3), .slice .full] [] true := by
  obtain ⟨hboxes, hshapes, -⟩ := full_slice_iff_omitted [4, 5]
  have hbox : Box.ofSlices [.unit 1 3] [4, 5] = .ok [⟨1, 2⟩, ⟨0, 5⟩] := rfl
  obtain ⟨box, happended, hsame⟩ := hboxes [.unit 1 3] _ (by decide) hbox
  obtain ⟨omitted, appended, homitted, hresolved, hequal⟩ :=
    hshapes [.unit 1 3] [] (by decide) (by decide)
  rw [hsame.mpr (by decide)] at happended
  rw [hequal.mpr (Or.inl (by decide))] at hresolved
  exact ⟨hbox, happended, homitted.trans hresolved.symm⟩

/-- An axis with one element more than there are positions. -/
def oneTooLong : Shape := [9223372036854775808]

/-- A full slice leaves out the last element of such an axis. -/
theorem not_full_slice_same_shape :
    ¬ ∀ (shape : Shape) (slices : List Slice), slices.length < shape.length →
      (∀ slice ∈ slices, slice.stepOrDefault = 1) →
      Selection.resultShape shape ((slices ++ [Slice.full]).map .slice) [] true =
        Selection.resultShape shape (slices.map .slice) [] true := by
  intro hagree
  have hagreed := hagree oneTooLong [] (by decide) (by simp)
  have homitted : Selection.resultShape oneTooLong [] [] true = .ok [9223372036854775808] := rfl
  have happended : Selection.resultShape oneTooLong [.slice .full] [] true =
      .ok [9223372036854775807] := rfl
  have hsame : ([9223372036854775807] : Shape) = [9223372036854775808] :=
    Except.ok.inj (happended.symm.trans (hagreed.trans homitted))
  exact absurd hsame (by decide)

end ChunkedArray
