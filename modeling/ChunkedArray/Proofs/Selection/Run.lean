import ChunkedArray.Proofs.Outcome
import ChunkedArray.Proofs.Selection.Differences
import ChunkedArray.Proofs.Selection.Slice
import Mathlib.Data.List.Chain

/-!
# ChunkedArray.Proofs.Selection.Run

Runs of positions and the slices that they become.

An integer is a run of one position, and an index array may list a longer one. A run
becomes the slice from its first position to the one after its last. On an axis this slice
selects the positions of the run (`positions_runSlice`), unless the run ends with the last
element counted from the end: the position after -1 is 0, which is the start of the axis,
and nothing is selected.
-/

namespace ChunkedArray

/-- The positions ascend one by one. -/
def IsRun (positions : List Int64) : Prop :=
  positions.IsChain fun position next => next.toInt = position.toInt + 1

instance (positions : List Int64) : Decidable (IsRun positions) :=
  inferInstanceAs (Decidable (positions.IsChain fun position next =>
    next.toInt = position.toInt + 1))

/-- The positions are counted from the start of an axis and lie on it. -/
def OnAxis (length : Nat) (positions : List Int64) : Prop :=
  ∀ position ∈ positions, 0 ≤ position.toInt ∧ position.toInt < length

instance (length : Nat) (positions : List Int64) : Decidable (OnAxis length positions) :=
  List.decidableBAll _ positions

/-- The positions that an integer or an index array lists. -/
def Selector.listed : Selector → List Int64
  | integer position => [position]
  | indexArray array => array.positions
  | slice _ | ellipsis => []

variable {first : Int64} {rest : List Int64} {length : UInt64}

/-- The slice from a position to the one after the last of some more. -/
def runSlice (first : Int64) (rest : List Int64) : Slice :=
  .unit first (nextPosition (rest.getLastD first))

namespace IsRun

theorem tail {second : Int64} (h : IsRun (first :: second :: rest)) : IsRun (second :: rest) :=
  (List.isChain_cons_cons.mp h).2

theorem second_eq {second : Int64} (h : IsRun (first :: second :: rest)) :
    second.toInt = first.toInt + 1 := (List.isChain_cons_cons.mp h).1

/-- A run is made of all integers from its first position on. -/
theorem map_toInt (h : IsRun (first :: rest)) : (first :: rest).map Int64.toInt =
    (List.range (rest.length + 1)).map fun i : Nat => first.toInt + i := by
  induction rest generalizing first with
  | nil => simp
  | cons second rest ih =>
    have hrange : List.range ((second :: rest).length + 1) =
        0 :: (List.range (rest.length + 1)).map Nat.succ := List.range_succ_eq_map
    rw [List.map_cons, ih h.tail, h.second_eq, hrange, List.map_cons, List.map_map]
    simp [Function.comp_def, Int.add_assoc, Int.add_comm 1]

theorem last_eq (h : IsRun (first :: rest)) :
    (rest.getLastD first).toInt = first.toInt + rest.length := by
  induction rest generalizing first with
  | nil => simp
  | cons second rest ih =>
    rw [List.getLastD_cons, ih h.tail, h.second_eq, List.length_cons]
    omega

end IsRun

theorem isRun_iff {positions : List Int64} :
    IsRun positions ↔ ∀ step ∈ IndexArray.exactDifferences positions, step = 1 := by
  induction positions with
  | nil => simp [IsRun, IndexArray.exactDifferences]
  | cons first rest ih =>
    cases rest with
    | nil => simp [IsRun, IndexArray.exactDifferences]
    | cons second rest =>
      rw [IndexArray.exactDifferences_cons_cons, List.forall_mem_cons, ← ih, IsRun, List.isChain_cons_cons]
      exact and_congr_left fun _ => by omega

/-- The array of a run is the slice of the run. -/
theorem IsRun.toSlice_eq {shape : Shape} (h : IsRun (first :: rest)) :
    IndexArray.toSlice ⟨first :: rest, shape⟩ = .ok (runSlice first rest) :=
  IndexArray.Contiguous.toSlice_eq (Or.inl (isRun_iff.mp h)) rfl

theorem Selector.toSlice_of_listed {selector : Selector} (hlisted : selector.listed = first :: rest)
    (h : IsRun (first :: rest)) : selector.toSlice = .ok (runSlice first rest) := by
  cases selector with
  | integer position =>
    obtain ⟨rfl, rfl⟩ := List.cons.inj hlisted
    rfl
  | indexArray array =>
    obtain ⟨positions, shape⟩ := array
    obtain rfl : positions = first :: rest := hlisted
    exact h.toSlice_eq
  | slice | ellipsis => cases hlisted

/-! ### Runs on an axis -/

theorem toInt_nextPosition {position : Int64} (h : position.toInt < Int64.maxValue.toInt) :
    (nextPosition position).toInt = position.toInt + 1 := by
  have hmin := position.minValue_le_toInt
  exact Int64.toInt_ofIntClamp (by omega) (by omega)

/-- The positions of a run on an axis, as the host counts them. -/
theorem IsRun.map_hostPosition (h : IsRun (first :: rest)) {size : Nat}
    (hside : first.toInt < 0 ↔ (rest.getLastD first).toInt < 0)
    (hfirst : 0 ≤ hostPosition size first) :
    (first :: rest).map (fun position => (hostPosition size position).toNat) =
      List.range' (hostPosition size first).toNat (rest.length + 1) := by
  have hlast := h.last_eq
  have hcomp : (first :: rest).map (fun position => (hostPosition size position).toNat) =
      ((first :: rest).map Int64.toInt).map
        (fun position : Int => (if position < 0 then position + size else position).toNat) := by
    simp [hostPosition]
  rw [hcomp, h.map_toInt, List.map_map, List.range'_eq_map_range]
  refine List.map_congr_left fun i hi => ?_
  have hlt : i < rest.length + 1 := List.mem_range.mp hi
  simp only [hostPosition] at hfirst
  simp only [Function.comp_apply, hostPosition]
  split at hfirst
  · rw [if_pos (by omega), if_pos (by omega)]
    omega
  · rw [if_neg (by omega), if_neg (by omega)]
    omega

/-- **The slice of a run selects the positions of the run**, as long as all of them are
counted from one end of the axis. A run that ends with the last element counted from the
end selects nothing. -/
theorem IsRun.positions_runSlice (h : IsRun (first :: rest))
    (hlength : length.toNat ≤ Int64.maxValue.toInt.toNat)
    (hside : first.toInt < 0 ↔ (rest.getLastD first).toInt < 0)
    (hfirst : 0 ≤ hostPosition length.toNat first)
    (hlast : hostPosition length.toNat (rest.getLastD first) < length.toNat) :
    ((runSlice first rest).onAxis length).positions =
      if rest.getLastD first = -1 then [] else
        (first :: rest).map fun position => (hostPosition length.toNat position).toNat := by
  have hlastEq := h.last_eq
  have hnext : (nextPosition (rest.getLastD first)).toInt = (rest.getLastD first).toInt + 1 := by
    refine toInt_nextPosition ?_
    have hmax : 0 < Int64.maxValue.toInt := by decide
    unfold hostPosition at hlast
    split at hlast <;> omega
  rw [h.map_hostPosition hside hfirst, Slice.positions_onAxis rfl]
  simp only [Slice.onAxis, runSlice, Slice.unit, Option.elim_some, measurable_eq hlength]
  split
  next hend =>
    -- the slice stops where the axis starts
    have hzero : nextPosition (rest.getLastD first) = 0 := by
      rw [hend]
      rfl
    rw [hzero]
    simp [Slice.clampBound]
  next hend =>
    have hne : (rest.getLastD first).toInt ≠ -1 := fun heq => hend (Int64.toInt_inj.mp heq)
    have hstop : hostPosition length.toNat (nextPosition (rest.getLastD first)) =
        hostPosition length.toNat (rest.getLastD first) + 1 := by
      unfold hostPosition
      split <;> split <;> omega
    have hspan : hostPosition length.toNat (rest.getLastD first) =
        hostPosition length.toNat first + rest.length := by
      unfold hostPosition
      split <;> split <;> omega
    have hfrom : Slice.clampBound length.toNat first =
        (hostPosition length.toNat first).toNat := by
      rw [Slice.clampBound_eq]
      omega
    have hto : Slice.clampBound length.toNat (nextPosition (rest.getLastD first)) =
        (hostPosition length.toNat first).toNat + (rest.length + 1) := by
      rw [Slice.clampBound_eq]
      omega
    rw [hfrom, hto]
    congr 1
    omega

/-- A run counted from the start is the slice of its positions. -/
theorem IsRun.positions_of_nonneg (h : IsRun (first :: rest))
    (hlength : length.toNat ≤ Int64.maxValue.toInt.toNat)
    (haxis : OnAxis length.toNat (first :: rest)) :
    ((runSlice first rest).onAxis length).positions =
      (first :: rest).map fun position => (hostPosition length.toNat position).toNat := by
  have hfirst := haxis first List.mem_cons_self
  have hlast := haxis (rest.getLastD first) List.getLastD_mem_cons
  have hhost : ∀ position : Int64, 0 ≤ position.toInt →
      hostPosition length.toNat position = position.toInt :=
    fun position hpos => if_neg (by omega)
  have hend : rest.getLastD first ≠ -1 := by
    intro heq
    rw [heq] at hlast
    exact absurd hlast.1 (by decide)
  rw [h.positions_runSlice hlength (iff_of_false (by omega) (by omega))
    (by rw [hhost _ hfirst.1]; omega) (by rw [hhost _ hlast.1]; omega), if_neg hend]

theorem IsRun.mem_positions (h : IsRun (first :: rest))
    (hlength : length.toNat ≤ Int64.maxValue.toInt.toNat)
    (haxis : OnAxis length.toNat (first :: rest)) (position : Nat) :
    position ∈ ((runSlice first rest).onAxis length).positions ↔
      ∃ listed ∈ first :: rest, listed.toInt = position := by
  rw [h.positions_of_nonneg hlength haxis, List.mem_map]
  refine exists_congr fun listed => and_congr_right fun hmem => ?_
  have hnonneg := (haxis listed hmem).1
  rw [hostPosition, if_neg (by omega)]
  omega

/-! ### Selections -/

/-- Slices alone would pass the checks of other selections too. -/
theorem Selection.toSlices_eq (selection : Selection) : selection.toSlices = do
    let slices ← selection.mapM Selector.toSlice
    if 1 < selection.length ∧ selection.all Selector.isIndexArray then
      throw (.discontiguous .vectorized)
    return slices := by
  rw [toSlices]
  split
  next hall =>
    have hslices : List.Forall₂ (fun selector slice => selector.toSlice = .ok slice) selection
        (selection.filterMap Selector.slice?) := by
      induction selection with
      | nil => exact .nil
      | cons selector rest ih =>
        simp only [allSlices, List.all_cons, Bool.and_eq_true] at hall
        cases selector with
        | slice range => exact .cons rfl (ih hall.2)
        | integer | ellipsis | indexArray => exact absurd hall.1 Bool.false_ne_true
    have hpoints : ¬ (1 < selection.length ∧ selection.all Selector.isIndexArray) := by
      cases selection with
      | nil => simp
      | cons selector rest =>
        cases selector with
        | slice => simp [Selector.isIndexArray, Selector.indexArray?]
        | integer | ellipsis | indexArray => simp [allSlices, Selector.isSlice] at hall
    rw [Outcome.mapM_eq_ok.mpr hslices]
    show _ = if _ then _ else _
    rw [if_neg hpoints]
    rfl
  next => rfl

/-- Each selector has become its slice, and not all of several ones are index arrays. -/
theorem Selection.toSlices_eq_ok {selection : Selection} {slices : List Slice} :
    selection.toSlices = .ok slices ↔
      List.Forall₂ (fun selector slice => selector.toSlice = .ok slice) selection slices ∧
        ¬ (1 < selection.length ∧ selection.all Selector.isIndexArray) := by
  rw [toSlices_eq, Outcome.bind_eq_ok]
  simp only [Outcome.mapM_eq_ok]
  constructor
  · rintro ⟨found, hfound, hend⟩
    split at hend
    · cases hend
    next hpoints =>
      obtain rfl := Except.ok.inj hend
      exact ⟨hfound, hpoints⟩
  · rintro ⟨hslices, hpoints⟩
    refine ⟨slices, hslices, ?_⟩
    rw [if_neg hpoints]
    rfl

/-! ### Runs counted from the end -/

/-- In a run below zero, only the last position can be -1. -/
theorem IsRun.last_eq_iff_mem (h : IsRun (first :: rest))
    (hneg : ∀ position ∈ first :: rest, position.toInt < 0) :
    rest.getLastD first = -1 ↔ -1 ∈ first :: rest := by
  have hlast : rest.getLastD first ∈ first :: rest := List.getLastD_mem_cons
  constructor
  · intro heq
    exact heq ▸ hlast
  · intro hmem
    have hint : Int64.toInt (-1) ∈ (first :: rest).map Int64.toInt := List.mem_map_of_mem hmem
    rw [h.map_toInt] at hint
    obtain ⟨i, hi, heq⟩ := List.mem_map.mp hint
    have hbelow := hneg _ hlast
    have hend := h.last_eq
    have hlt := List.mem_range.mp hi
    have hone : Int64.toInt (-1) = -1 := rfl
    refine Int64.toInt_inj.mp ?_
    omega

/-- **A run of positions that are counted from the end keeps its meaning as a slice unless it
holds the last one, -1.** Then the slice selects nothing at all. -/
theorem negative_run_sliced {selector : Selector} {length : UInt64}
    (hlength : length.toNat ≤ Int64.maxValue.toInt.toNat) (hlisted : selector.listed ≠ [])
    (hrun : IsRun selector.listed)
    (hrange : ∀ position ∈ selector.listed,
      -(length.toNat : Int) ≤ position.toInt ∧ position.toInt < 0) :
    ∃ slice, Selection.toSlices [selector] = .ok [slice] ∧
      (∀ (selection : Selection) (slices : List Slice) (place : Nat),
        selection.toSlices = .ok slices → selection[place]? = some selector →
          slices[place]? = some slice) ∧
      slice.stepOrDefault = 1 ∧
      (slice.onAxis length).positions = if -1 ∈ selector.listed then [] else
        selector.listed.map fun position => (position.toInt + (length.toNat : Int)).toNat := by
  obtain ⟨first, rest, hpositions⟩ := List.exists_cons_of_ne_nil hlisted
  rw [hpositions] at hrun hrange ⊢
  have hslice := selector.toSlice_of_listed hpositions hrun
  have hneg : ∀ position ∈ first :: rest, position.toInt < 0 :=
    fun position hmem => (hrange position hmem).2
  have hhost : ∀ position ∈ first :: rest,
      hostPosition length.toNat position = position.toInt + length.toNat :=
    fun position hmem => if_pos (hneg position hmem)
  have hlast : rest.getLastD first ∈ first :: rest := List.getLastD_mem_cons
  refine ⟨runSlice first rest, ?_, ?_, rfl, ?_⟩
  · exact Selection.toSlices_eq_ok.mpr ⟨.cons hslice .nil, by simp⟩
  · intro selection slices place hslices hplace
    have hall := (Selection.toSlices_eq_ok.mp hslices).1
    obtain ⟨slice, hfound, hsame⟩ := exists_of_forall₂ hall hplace
    rw [hslice] at hsame
    rw [hfound, Except.ok.inj hsame]
  · have hside : first.toInt < 0 ↔ (rest.getLastD first).toInt < 0 :=
      iff_of_true (hneg first List.mem_cons_self) (hneg _ hlast)
    have hstart : 0 ≤ hostPosition length.toNat first := by
      have hbelow := (hrange first List.mem_cons_self).1
      rw [hhost first List.mem_cons_self]
      omega
    have hend : hostPosition length.toNat (rest.getLastD first) < length.toNat := by
      have hbelow := hneg _ hlast
      rw [hhost _ hlast]
      omega
    rw [hrun.positions_runSlice hlength hside hstart hend]
    simp only [hrun.last_eq_iff_mem hneg]
    split
    · rfl
    · exact List.map_congr_left fun position hmem => by rw [hhost position hmem]

/-- The two positions in front of the last one. -/
theorem negative_run_sliced_two :
    ((4 : UInt64).toNat ≤ Int64.maxValue.toInt.toNat) ∧
      (Selector.indexArray (.ofList [-3, -2])).listed ≠ [] ∧
      IsRun [-3, -2] ∧
      (∀ position ∈ ([-3, -2] : List Int64), -4 ≤ position.toInt ∧ position.toInt < 0) ∧
      ∃ slice, Selection.toSlices [.indexArray (.ofList [-3, -2])] = .ok [slice] ∧
        (slice.onAxis 4).positions = [1, 2] := by
  have hlength : (4 : UInt64).toNat ≤ Int64.maxValue.toInt.toNat := by decide
  have hlisted : (Selector.indexArray (.ofList [-3, -2])).listed ≠ [] := nofun
  have hrun : IsRun [-3, -2] := by decide
  have hrange : ∀ position ∈ ([-3, -2] : List Int64),
      -4 ≤ position.toInt ∧ position.toInt < 0 := by
    rw [List.forall_mem_cons, List.forall_mem_singleton]
    decide
  obtain ⟨slice, hslice, -, -, hpositions⟩ := negative_run_sliced hlength hlisted hrun hrange
  exact ⟨hlength, hlisted, hrun, hrange, slice, hslice, hpositions⟩

/-- The last element of an axis of four, counted from the end, becomes the slice from 3 to 0. -/
theorem not_negative_run_sliced :
    ¬ ∀ (selector : Selector) (length : UInt64), length.toNat ≤ Int64.maxValue.toInt.toNat →
      selector.listed ≠ [] → IsRun selector.listed →
      (∀ position ∈ selector.listed,
        -(length.toNat : Int) ≤ position.toInt ∧ position.toInt < 0) →
      ∃ slice, Selection.toSlices [selector] = .ok [slice] ∧
        (slice.onAxis length).positions =
          selector.listed.map fun position => (position.toInt + (length.toNat : Int)).toNat := by
  intro hkept
  obtain ⟨slice, hslice, hpositions⟩ := hkept (.integer (-1)) 4 (by decide) nofun
    (.singleton _) (List.forall_mem_singleton.mpr (by decide))
  have hunit : [Slice.unit (-1) 0] = [slice] := Except.ok.inj hslice
  obtain rfl := List.singleton_inj.mp hunit
  exact absurd hpositions (by decide)

end ChunkedArray
