import ChunkedArray.Proofs.Selection.Rank

/-!
# ChunkedArray.Proofs.Selection.Overrun

When there are too many selectors for an array.

Index arrays, integers and slices each name an axis. That there are not enough axes for them is
noticed only by a slice, when it is read behind the last axis (`Selection.Overruns`). Integers
and index arrays move on without a look at the rank, so that too many of them go unnoticed if no
slice is read behind them. An ellipsis moves on as well. Several ellipses absorb the same axes
again and can take a slice behind the last axis although there is room for all selectors.
-/

namespace ChunkedArray

namespace Selection

/-- How many axes a selection names: every selector names one, an ellipsis none. -/
def namedAxes (selection : Selection) : Nat := selection.countP (!·.isEllipsis)

/-- The axis at which a selection on an array of `rank` axes reads what is behind `front`. Index
arrays use up the first axes. Then every integer and every slice takes one, and every ellipsis
as many as it absorbs. -/
def axisBehind (selection front : Selection) (rank : Nat) : Nat :=
  (indexArrays selection).length + front.countP Selector.takesAxis +
    ellipsisFill selection rank * front.countP Selector.isEllipsis

/-- A slice is read behind the last of `rank` axes. -/
def Overruns (selection : Selection) (rank : Nat) : Prop :=
  ∃ front range back, selection = front ++ .slice range :: back ∧
    rank ≤ axisBehind selection front rank

/-- The last selector that takes an axis is a slice. -/
def EndsInSlice (selection : Selection) : Prop :=
  ∃ front range back, selection = front ++ .slice range :: back ∧
    ∀ selector ∈ back, ¬ selector.takesAxis

variable {shape : Shape} {fill selectors rank : Nat} {selection front back : Selection}
  {selector : Selector} {state : Progress} {error : SelectionError}

/-! ### Reading to the end -/

/-- Slices of unit step are refused only for want of an axis. -/
theorem error_of_advance (hunit : UnitSteps selection)
    (h : advance shape selectors selection state = .error error) :
    error = .tooManyIndices selectors shape.length := by
  induction selection generalizing state with
  | nil => cases h
  | cons selector rest ih =>
    cases selector with
    | indexArray | integer | ellipsis => exact ih hunit.of_cons h
    | slice range =>
      rw [advance, if_neg (not_not.mpr (hunit range List.mem_cons_self))] at h
      split at h
      · exact (Except.error.inj h).symm
      · exact ih hunit.of_cons h

section Reported

variable (hunit : UnitSteps selection)
  (harrays : Shape.Broadcastable ((indexArrays selection).map IndexArray.shape))
  (dropped : DropAxes) (pad : Bool)

include hunit harrays

theorem error_of_resultShape (h : resultShape shape selection dropped pad = .error error) :
    error = .tooManyIndices selection.length shape.length := by
  obtain ⟨block, hblock, -⟩ := exists_arrayBlock harrays
  rcases Outcome.bind_eq_error.mp h with hnone | ⟨other, -, hrest⟩
  · cases hblock.symm.trans hnone
  · rcases Outcome.bind_eq_error.mp hrest with hadvance | ⟨reached, -, hpure⟩
    · exact error_of_advance hunit hadvance
    · cases hpure

/-- A selection has a shape just if no slice is read behind the last axis. -/
theorem exists_resultShape_iff :
    (∃ result, resultShape shape selection dropped pad = .ok result) ↔
      ¬ Overruns selection shape.length := by
  obtain ⟨block, hblock, -⟩ := exists_arrayBlock harrays
  have hwalks : (∃ result, resultShape shape selection dropped pad = .ok result) ↔
      ∃ reached, Walks shape (ellipsisFill selection shape.length) selection block reached := by
    constructor
    · intro h
      obtain ⟨result, hresult⟩ := h
      obtain ⟨other, reached, hother, hwalk, -⟩ := resultShape_eq_ok_iff.mp hresult
      obtain rfl := Except.ok.inj (hblock.symm.trans hother)
      exact ⟨reached, hwalk⟩
    · intro h
      obtain ⟨reached, hwalk⟩ := h
      exact ⟨_, resultShape_eq_ok_iff.mpr ⟨block, reached, hblock, hwalk, rfl⟩⟩
  rw [hwalks, Walks.exists_iff hunit, cursor_of_arrayBlock hblock]
  simp only [Overruns, axisBehind, not_exists, not_and, Nat.not_le]

end Reported

/-! ### Counting selectors -/

theorem namedAxes_eq (selection : Selection) : namedAxes selection =
    (indexArrays selection).length + selection.countP Selector.takesAxis := by
  have hcounts := length_eq_counts selection
  have hnamed := List.length_eq_countP_add_countP (p := Selector.isEllipsis) (l := selection)
  simp only [namedAxes, Bool.not_eq_true, Bool.decide_eq_false] at hnamed ⊢
  omega

theorem behindEllipsis_append (hmem : .ellipsis ∈ front) (back : Selection) :
    behindEllipsis (front ++ back) = behindEllipsis front ++ back := by
  induction front with
  | nil => cases hmem
  | cons selector front ih =>
    cases selector with
    | ellipsis => rfl
    | indexArray | integer | slice =>
      exact ih ((List.mem_cons.mp hmem).resolve_left Selector.noConfusion)

/-- With ellipses that absorb axes only once, there is one at most in front of a selector that
takes an axis. -/
theorem AbsorbsOnce.countP_le_one (h : AbsorbsOnce (front ++ selector :: back) rank)
    (htakes : selector.takesAxis) :
    ellipsisFill (front ++ selector :: back) rank = 0 ∨ front.countP Selector.isEllipsis ≤ 1 := by
  refine h.imp id fun hnone => ?_
  by_contra hmany
  have hmem : ∀ front : Selection, 0 < front.countP Selector.isEllipsis → .ellipsis ∈ front := by
    intro front hpos
    obtain ⟨selector, hmem, hellipsis⟩ := List.countP_pos_iff.mp hpos
    cases selector with
    | ellipsis => exact hmem
    | indexArray | integer | slice => cases hellipsis
  have hbehind := countP_behindEllipsis front
  rw [behindEllipsis_append (hmem _ (by omega)), behindEllipsis_append (hmem _ (by omega))] at hnone
  exact hnone selector (by simp) htakes

theorem countP_takesAxis_split (front : Selection) (range : Slice) (back : Selection) :
    (front ++ .slice range :: back).countP Selector.takesAxis =
      front.countP Selector.takesAxis + 1 + back.countP Selector.takesAxis := by
  rw [List.countP_append, List.countP_cons_of_pos rfl]
  omega

/-- A slice is not read behind the last axis if there is an axis for every selector. -/
theorem Overruns.lt_namedAxes (h : Overruns selection rank) (honce : AbsorbsOnce selection rank) :
    rank < namedAxes selection := by
  obtain ⟨front, range, back, rfl, hbehind⟩ := h
  have hcounts := length_eq_counts (front ++ .slice range :: back)
  have hellipses : front.countP Selector.isEllipsis ≤
      (front ++ .slice range :: back).countP Selector.isEllipsis := by
    rw [List.countP_append]
    exact Nat.le_add_right _ _
  rw [countP_takesAxis_split] at hcounts
  rw [namedAxes_eq, countP_takesAxis_split]
  rw [axisBehind] at hbehind
  rcases honce.countP_le_one rfl with hzero | hle
  · rw [hzero, Nat.zero_mul] at hbehind
    omega
  · -- what an ellipsis absorbs leaves an axis to each selector
    rcases Nat.le_one_iff_eq_zero_or_eq_one.mp hle with hnone | hone
    · rw [hnone, Nat.mul_zero] at hbehind
      omega
    · rw [hone, Nat.mul_one, ellipsisFill] at hbehind
      omega

/-- With too many selectors the last slice is read behind the last axis, if no integer is behind
it. -/
theorem EndsInSlice.overruns (h : EndsInSlice selection) (hmany : rank < namedAxes selection) :
    Overruns selection rank := by
  obtain ⟨front, range, back, rfl, hback⟩ := h
  have hlast : back.countP Selector.takesAxis = 0 := List.countP_eq_zero.mpr hback
  refine ⟨front, range, back, rfl, ?_⟩
  rw [namedAxes_eq, countP_takesAxis_split] at hmany
  rw [axisBehind]
  omega

/-- **A selection has too many selectors if a slice of it is read behind the last axis.** Nothing
else goes wrong with slices of unit step. With ellipses that absorb axes only once, there are then
more selectors than axes. If there are more, and no integer is behind the last slice, that slice
is read behind the last axis. -/
theorem tooManyIndices_iff_overruns (hunit : UnitSteps selection)
    (harrays : Shape.Broadcastable ((indexArrays selection).map IndexArray.shape))
    (shape : Shape) (dropped : DropAxes) (pad : Bool) :
    ((∃ selectors rank, resultShape shape selection dropped pad =
        .error (.tooManyIndices selectors rank)) ↔ Overruns selection shape.length) ∧
      (∀ error, resultShape shape selection dropped pad = .error error →
        error = .tooManyIndices selection.length shape.length) ∧
      (AbsorbsOnce selection shape.length → Overruns selection shape.length →
        shape.length < namedAxes selection) ∧
      (EndsInSlice selection → shape.length < namedAxes selection →
        Overruns selection shape.length) := by
  have hshape : (∃ result, resultShape shape selection dropped pad = .ok result) ↔
      ¬ Overruns selection shape.length := exists_resultShape_iff hunit harrays dropped pad
  have herror : ∀ error, resultShape shape selection dropped pad = .error error →
      error = .tooManyIndices selection.length shape.length :=
    fun _ => error_of_resultShape hunit harrays dropped pad
  refine ⟨?_, herror, fun honce h => h.lt_namedAxes honce, fun hends => hends.overruns⟩
  constructor
  · intro h
    obtain ⟨selectors, rank, hreported⟩ := h
    by_contra hnone
    obtain ⟨result, hresult⟩ := hshape.mpr hnone
    cases hresult.symm.trans hreported
  · intro hoverruns
    cases hresult : resultShape shape selection dropped pad with
    | ok result => exact absurd hoverruns (hshape.mp ⟨result, hresult⟩)
    | error error => exact ⟨_, _, congrArg _ (herror error hresult)⟩

/-- Two slices and an index array, and an ellipsis that absorbs nothing of two axes. -/
def crowded : Selection :=
  [.slice .full, .ellipsis, .slice (.unit 0 2), .indexArray (.ofList [1, 2])]

/-- The index array uses up the first axis and the first slice the second one, so that there is
none left for the second slice. -/
theorem tooManyIndices_iff_overruns_crowded :
    UnitSteps crowded ∧ Shape.Broadcastable ((indexArrays crowded).map IndexArray.shape) ∧
      AbsorbsOnce crowded 2 ∧ EndsInSlice crowded ∧ 2 < namedAxes crowded ∧
      resultShape [4, 5] crowded [1] true = .error (.tooManyIndices 4 2) := by
  have hunit : UnitSteps crowded := by
    intro range hmem
    simp [crowded] at hmem
    rcases hmem with rfl | rfl <;> rfl
  have harrays : Shape.Broadcastable ((indexArrays crowded).map IndexArray.shape) := by decide
  have honce : AbsorbsOnce crowded 2 := Or.inl rfl
  have hends : EndsInSlice crowded :=
    ⟨[.slice .full, .ellipsis], .unit 0 2, [.indexArray (.ofList [1, 2])], rfl, by simp⟩
  have hmany : 2 < namedAxes crowded := by decide
  obtain ⟨hreported, herror, -, hoverruns⟩ :=
    tooManyIndices_iff_overruns hunit harrays [4, 5] [1] true
  obtain ⟨selectors, rank, hresult⟩ := hreported.mpr (hoverruns hends hmany)
  exact ⟨hunit, harrays, honce, hends, hmany, hresult.trans (congrArg _ (herror _ hresult))⟩

/-- Two integers for one axis are not found to be too many. One slice for five axes is found to be
too many behind three ellipses, since each of them absorbs two axes. -/
theorem not_tooManyIndices_iff :
    ¬ (∀ (shape : Shape) (selection : Selection) (dropped : DropAxes) (pad : Bool),
        UnitSteps selection →
        Shape.Broadcastable ((indexArrays selection).map IndexArray.shape) →
        shape.length < namedAxes selection → ∃ selectors rank,
          resultShape shape selection dropped pad = .error (.tooManyIndices selectors rank)) ∧
      ¬ (∀ (shape : Shape) (selection : Selection) (dropped : DropAxes) (pad : Bool),
        UnitSteps selection →
        Shape.Broadcastable ((indexArrays selection).map IndexArray.shape) →
        (∃ selectors rank,
          resultShape shape selection dropped pad = .error (.tooManyIndices selectors rank)) →
        shape.length < namedAxes selection) := by
  constructor
  · intro hreported
    have hshape : resultShape [4] [.integer 0, .integer 0] [] true = .ok [] := rfl
    obtain ⟨selectors, rank, herror⟩ := hreported [4] [.integer 0, .integer 0] [] true
      (by simp [UnitSteps]) nofun (by decide)
    cases hshape.symm.trans herror
  · intro hmany
    have herror : resultShape [4, 5, 6, 7, 8]
        [.ellipsis, .ellipsis, .ellipsis, .slice .full] [] true =
          .error (.tooManyIndices 4 5) := rfl
    have hlt := hmany [4, 5, 6, 7, 8] [.ellipsis, .ellipsis, .ellipsis, .slice .full] [] true
      (by simp [UnitSteps, Slice.stepOrDefault, Slice.full]) nofun ⟨4, 5, herror⟩
    exact absurd hlt (by decide)

end Selection

end ChunkedArray
