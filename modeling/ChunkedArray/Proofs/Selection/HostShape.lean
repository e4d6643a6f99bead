import ChunkedArray.Proofs.Selection.Denotation
import Mathlib.Data.Set.Card

/-!
# ChunkedArray.Proofs.Selection.HostShape

The shape of a basic selection, measured on what it selects.

A basic selection is made of integers, slices that move by one and one ellipsis at most. On
an array with that many axes it always has a shape. This is the shape that the host gets when
it takes the selected elements out: on each axis that no integer takes, the number of
positions that are selected there (`Selection.hostShape`). The dropped axes are places of
this shape, and nothing else goes (`resultShape_eq_hostShape`).
-/

namespace ChunkedArray

/-! ### Slices -/

namespace Slice

variable {slice : Slice} {length : UInt64}

/-- A slice that moves by one counts the positions that the host selects. -/
theorem count_eq_ncard (hlength : length.toNat ≤ Int64.maxValue.toInt.toNat)
    (hstep : slice.stepOrDefault = 1) :
    (slice.onAxis length).count = {position | slice.Selects length.toNat position}.ncard := by
  have hnodup : (slice.onAxis length).positions.Nodup := by
    rw [positions_onAxis hstep]
    exact List.nodup_range'
  have hset : {position | slice.Selects length.toNat position} =
      ((slice.onAxis length).positions.toFinset : Set Nat) := by
    ext position
    simp [mem_positions_onAxis hlength (stepOrDefault_pos hstep)]
  rw [hset, Set.ncard_coe_finset, List.toFinset_card_of_nodup hnodup, Stretch.length_positions]

/-- The count of a measured slice is a length. -/
theorem toNat_count (hstep : slice.stepOrDefault = 1) (length : UInt64) :
    (slice.onAxis length).count.toUInt64.toNat = (slice.onAxis length).count := by
  obtain ⟨span, hspan, hcount⟩ := exists_toSpan hstep length
  rw [← hcount, ← Span.length_positions, (toSpan_eq_ok hspan).2, Stretch.length_positions]

end Slice

namespace Selection

/-- Integers, slices that move by one, and one ellipsis at most, for an array of `rank` axes. -/
structure Basic (selection : Selection) (rank : Nat) : Prop extends Fits selection rank where
  arrays : indexArrays selection = []

/-- On each axis that no integer takes, the number of positions that its selector selects. -/
noncomputable def selectedCounts (axes : List Selector) (shape : Shape) : List Nat :=
  ((axes.zip shape).filter fun axis => !axis.1.isInteger).map
    fun axis => {position | axis.1.Selects axis.2.toNat position}.ncard

/-- The shape of what the host takes out of an array of `shape`. -/
noncomputable def hostShape (selection : Selection) (shape : Shape) : List Nat :=
  selectedCounts (hostAxes selection shape.length) shape

/-- The items but for those at some places. -/
def withoutPlaces {α : Type} (places : List Nat) (items : List α) : List α :=
  (List.range items.length).filterMap fun place =>
    if place ∈ places then none else items[place]?

variable {selection axes : Selection} {shape : Shape}

/-! ### Places of a shape -/

theorem withoutPlaces_concat {α : Type} (places : List Nat) (items : List α) (item : α) :
    withoutPlaces places (items ++ [item]) =
      withoutPlaces places items ++ if items.length ∈ places then [] else [item] := by
  have hfront : (List.range items.length).filterMap
      (fun place => if place ∈ places then none else (items ++ [item])[place]?) =
        withoutPlaces places items := by
    refine List.filterMap_congr fun place hplace => ?_
    rw [List.getElem?_append_left (List.mem_range.mp hplace)]
  rw [withoutPlaces, List.length_append, List.length_singleton, List.range_succ,
    List.filterMap_append, hfront]
  by_cases hmem : items.length ∈ places <;> simp [hmem]

/-- Dropping axes leaves the other places of a shape. -/
theorem map_withoutAxes {α : Type} (f : UInt64 → α) (dropped : DropAxes) (shape : Shape) :
    (withoutAxes dropped shape).map f = withoutPlaces dropped (shape.map f) := by
  induction shape using List.reverseRecOn with
  | nil => rfl
  | append_singleton shape length ih =>
    rw [withoutAxes_concat, List.map_append, ih, List.map_append, List.map_singleton,
      withoutPlaces_concat, List.length_map]
    split <;> rfl

/-! ### The lengths of a walk -/

/-- Integers and slices become slices, which count what is selected. -/
theorem exists_slices (harrays : indexArrays axes = []) (hellipsis : .ellipsis ∉ axes)
    (hunit : UnitSteps axes) (hshape : shape.Addressable) :
    ∃ slices, List.Forall₂ (fun selector slice => selector.toSlice = .ok slice) axes slices ∧
      (keptLengths axes (slicedLengths slices shape)).map UInt64.toNat =
        selectedCounts axes shape := by
  induction axes generalizing shape with
  | nil => exact ⟨[], .nil, rfl⟩
  | cons axis axes ih =>
    have hnone := List.not_mem_of_not_mem_cons hellipsis
    have htail : Shape.Addressable shape.tail :=
      fun length hmem => hshape length (List.mem_of_mem_tail hmem)
    cases axis with
    | ellipsis => exact absurd List.mem_cons_self hellipsis
    | indexArray => cases harrays
    | integer position =>
      obtain ⟨slices, hslices, hcounts⟩ := ih harrays hnone hunit.of_cons htail
      refine ⟨.single position :: slices, .cons rfl hslices, ?_⟩
      cases shape with
      | nil => rfl
      | cons length shape => simpa [slicedLengths_cons, keptLengths_cons, selectedCounts] using hcounts
    | slice range =>
      obtain ⟨slices, hslices, hcounts⟩ := ih harrays hnone hunit.of_cons htail
      have hstep := hunit range List.mem_cons_self
      refine ⟨range :: slices, .cons rfl hslices, ?_⟩
      cases shape with
      | nil => rfl
      | cons length shape =>
        have hcount := (Slice.toNat_count hstep length).trans
          (Slice.count_eq_ncard (hshape length List.mem_cons_self) hstep)
        simpa [slicedLengths_cons, keptLengths_cons, selectedCounts, hcount, Selector.Selects]
          using hcounts

namespace Basic

variable (hbasic : selection.Basic shape.length)

include hbasic

theorem exists_resultShape : ∃ result, resultShape shape selection [] true = .ok result := by
  have hblock := arrayBlock_nil hbasic.arrays
  obtain ⟨reached, hwalk⟩ := hbasic.exists_walk hblock
  exact ⟨_, resultShape_eq_ok.mpr ⟨_, reached, hblock, hwalk, rfl⟩⟩

theorem map_toNat_resultShape {result : Shape} (hshape : shape.Addressable)
    (hresult : resultShape shape selection [] true = .ok result) :
    result.map UInt64.toNat = hostShape selection shape := by
  have hlength := length_hostAxes hbasic.rank hbasic.ellipses
  have hellipsis := ellipsis_not_mem_hostAxes hbasic.rank hbasic.ellipses
  have harrays := (indexArrays_hostAxes hbasic.rank hbasic.ellipses).trans hbasic.arrays
  obtain ⟨fill, block, reached, hblock, hwalk, rfl⟩ :=
    exists_walk_hostAxes hbasic.rank hbasic.ellipses hshape hresult
  obtain rfl : ⟨[], 0⟩ = block :=
    Except.ok.inj ((arrayBlock_nil hbasic.arrays).symm.trans hblock)
  obtain ⟨slices, hslices, hcounts⟩ :=
    exists_slices harrays hellipsis hwalk.step_eq_one hshape
  rw [hwalk.lengths_eq harrays hellipsis hslices ((Nat.zero_add _).trans hlength)]
  exact hcounts

end Basic

/-- **A basic selection has the shape of what the host takes out.** On each axis that no
integer takes, this is the number of selected positions: the whole length for an axis that
the ellipsis absorbs or that no selector reaches. Then the dropped axes are removed. -/
theorem resultShape_eq_hostShape (hshape : shape.Addressable)
    (hbasic : selection.Basic shape.length) (dropped : DropAxes) :
    ∃ result, resultShape shape selection dropped true = .ok result ∧
      result.map UInt64.toNat = withoutPlaces dropped (hostShape selection shape) := by
  obtain ⟨result, hresult⟩ := hbasic.exists_resultShape
  refine ⟨_, resultShape_dropped hresult dropped, ?_⟩
  rw [map_withoutAxes, hbasic.map_toNat_resultShape hshape hresult]

/-- An integer and bounds of both signs around an ellipsis: of the lengths 3, 5, 6 that remain,
the second one is dropped. -/
theorem resultShape_eq_hostShape_around :
    Shape.Addressable [4, 9, 5, 7] ∧
      Basic [.slice ⟨some (-3), none, none⟩, .integer 2, .ellipsis,
        .slice ⟨some 1, some 100, some 1⟩] 4 ∧
      withoutPlaces [1, 8] (hostShape [.slice ⟨some (-3), none, none⟩, .integer 2, .ellipsis,
        .slice ⟨some 1, some 100, some 1⟩] [4, 9, 5, 7]) = [3, 6] := by
  have hshape : Shape.Addressable [4, 9, 5, 7] := by decide
  have hbasic : Basic [.slice ⟨some (-3), none, none⟩, .integer 2, .ellipsis,
      .slice ⟨some 1, some 100, some 1⟩] 4 := by
    refine ⟨⟨by decide, by decide, ?_⟩, rfl⟩
    intro range hmem
    simp at hmem
    rcases hmem with rfl | rfl <;> rfl
  obtain ⟨result, hresult, hcounts⟩ := resultShape_eq_hostShape hshape hbasic [1, 8]
  obtain rfl : [3, 6] = result := Except.ok.inj hresult
  exact ⟨hshape, hbasic, hcounts.symm⟩

end Selection

end ChunkedArray
