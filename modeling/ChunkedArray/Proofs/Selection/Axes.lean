import ChunkedArray.Proofs.Selection.Ellipsis
import ChunkedArray.Selection.Rectangle

/-!
# ChunkedArray.Proofs.Selection.Axes

The selectors of the axes of an array, one for each axis.

`Selection.hostAxes` is how the host reads a selection with one ellipsis at most: the
ellipsis, or else the end of the selection, stands for the whole axes that are left over.
These are the selectors of the expanded selection, with whole axes behind them
(`hostAxes_eq`). Walking over integers and slices of all axes gives the lengths of the
slices on their axes, without those of integers (`Walks.lengths_eq`).
-/

namespace ChunkedArray

/-- Is the selector an integer? -/
@[simp] def Selector.isInteger : Selector → Bool
  | integer _ => true
  | _ => false

/-- The numbers of positions that slices select on their axes. -/
def slicedLengths (slices : List Slice) (shape : Shape) : Shape :=
  List.zipWith (fun slice length => (slice.onAxis length).count.toUInt64) slices shape

namespace Selection

/-- The selectors of the axes of an array, one for each axis. An ellipsis stands for the
axes that are left over by the selectors behind it, and so does the end of the selection. -/
def hostAxes : Selection → Nat → List Selector
  | [], rank => List.replicate rank (.slice .full)
  | .ellipsis :: rest, rank => List.replicate (rank - rest.length) (.slice .full) ++ rest
  | selector :: rest, rank => selector :: hostAxes rest (rank - 1)

/-- The lengths of the axes that no integer takes. -/
def keptLengths (axes : List Selector) (lengths : Shape) : Shape :=
  ((axes.zip lengths).filter fun axis => !axis.1.isInteger).map Prod.snd

variable {selection front axes : Selection} {shape : Shape} {rank fill : Nat}
  {state reached : Progress} {slices : List Slice}

/-! ### The axes of a selection -/

theorem hostAxes_append (hnone : .ellipsis ∉ front) (back : Selection) (rank : Nat) :
    hostAxes (front ++ back) rank = front ++ hostAxes back (rank - front.length) := by
  induction front generalizing rank with
  | nil => rfl
  | cons selector front ih =>
    have hrest := ih (List.not_mem_of_not_mem_cons hnone) (rank - 1)
    rw [List.length_cons, Nat.add_comm, ← Nat.sub_sub]
    cases selector with
    | ellipsis => exact absurd List.mem_cons_self hnone
    | indexArray | integer | slice => exact congrArg _ hrest

theorem filter_isEllipsis_of_not_mem (hnone : .ellipsis ∉ selection) :
    selection.filter (!·.isEllipsis) = selection := by
  rw [List.filter_eq_self]
  intro selector hmem
  cases selector with
  | ellipsis => exact absurd hmem hnone
  | indexArray | integer | slice => rfl

section Single

variable (hrank : (selection.filter (!·.isEllipsis)).length ≤ rank)
  (hellipses : selection.countP Selector.isEllipsis ≤ 1)

include hrank hellipses

/-- The expanded selection has no more selectors than there are axes, and just as many if
there is an ellipsis. -/
theorem exists_expandEllipsis :
    (.ellipsis ∉ selection ∧ expandEllipsis selection rank = selection ∧
      selection.length ≤ rank) ∨
    ∃ front back, selection = front ++ .ellipsis :: back ∧ .ellipsis ∉ front ∧
      expandEllipsis selection rank =
        front ++ (List.replicate (rank - front.length - back.length) (.slice .full) ++ back) ∧
      front.length + back.length ≤ rank := by
  by_cases hmem : .ellipsis ∈ selection
  · obtain ⟨front, back, rfl, hfront, hreplaced⟩ :=
      replaceEllipsis_of_mem hmem (ellipsisFill selection rank)
    have hback : .ellipsis ∉ back := by
      intro hmem
      have hpos : 0 < back.countP Selector.isEllipsis := List.countP_pos_iff.mpr ⟨_, hmem, rfl⟩
      rw [List.countP_append, List.countP_cons] at hellipses
      simp only [Selector.isEllipsis, if_true] at hellipses
      omega
    have hcount : front.length + back.length ≤ rank := by
      rw [List.filter_append, filter_isEllipsis_of_not_mem hfront, List.filter_cons_of_neg
        (by simp [Selector.isEllipsis]), filter_isEllipsis_of_not_mem hback] at hrank
      rwa [List.length_append] at hrank
    have hfill : ellipsisFill (front ++ .ellipsis :: back) rank =
        rank - front.length - back.length := by
      simp only [ellipsisFill, List.length_append, List.length_cons]
      omega
    rw [filter_isEllipsis_of_not_mem hback, hfill] at hreplaced
    refine Or.inr ⟨front, back, rfl, hfront, ?_, hcount⟩
    rw [expandEllipsis, hfill, hreplaced]
  · rw [filter_isEllipsis_of_not_mem hmem] at hrank
    exact Or.inl ⟨hmem, replaceEllipsis_of_not_mem hmem _, hrank⟩

theorem length_expandEllipsis_le : (expandEllipsis selection rank).length ≤ rank := by
  rcases exists_expandEllipsis hrank hellipses with
    ⟨-, hsame, hcount⟩ | ⟨front, back, -, -, hexpanded, hcount⟩
  · rwa [hsame]
  · rw [hexpanded]
    simp only [List.length_append, List.length_replicate]
    omega

/-- **The axes are those of the expanded selection**, and whole ones behind them. -/
theorem hostAxes_eq : hostAxes selection rank = expandEllipsis selection rank ++
    List.replicate (rank - (expandEllipsis selection rank).length) (.slice .full) := by
  rcases exists_expandEllipsis hrank hellipses with
    ⟨hmem, hsame, -⟩ | ⟨front, back, rfl, hfront, hexpanded, hcount⟩
  · rw [hsame]
    simpa [hostAxes] using hostAxes_append hmem [] rank
  · have hfull : rank - (expandEllipsis (front ++ .ellipsis :: back) rank).length = 0 := by
      rw [hexpanded]
      simp only [List.length_append, List.length_replicate]
      omega
    rw [hfull, hostAxes_append hfront, hexpanded]
    simp [hostAxes]

theorem length_hostAxes : (hostAxes selection rank).length = rank := by
  have hle := length_expandEllipsis_le hrank hellipses
  rw [hostAxes_eq hrank hellipses, List.length_append, List.length_replicate]
  omega

theorem mem_hostAxes {selector : Selector} (hmem : selector ∈ hostAxes selection rank) :
    selector ∈ selection ∨ selector = .slice .full := by
  rw [hostAxes_eq hrank hellipses, List.mem_append] at hmem
  rcases hmem with hmem | hwhole
  · rcases exists_expandEllipsis hrank hellipses with
      ⟨-, hsame, -⟩ | ⟨front, back, rfl, -, hexpanded, -⟩
    · rw [hsame] at hmem
      exact Or.inl hmem
    · rw [hexpanded] at hmem
      simp only [List.mem_append, List.mem_replicate, List.mem_cons] at hmem ⊢
      tauto
  · exact Or.inr (List.eq_of_mem_replicate hwhole)

theorem indexArrays_hostAxes : indexArrays (hostAxes selection rank) = indexArrays selection := by
  have hfull (count : Nat) : indexArrays (List.replicate count (.slice .full)) = [] := by
    simp [indexArrays, Selector.indexArray?]
  have hsame := indexArrays_replaceEllipsis (ellipsisFill selection rank) selection
  rw [hostAxes_eq hrank hellipses, indexArrays, List.filterMap_append]
  simp only [indexArrays, expandEllipsis] at hfull hsame ⊢
  rw [hfull, hsame, List.append_nil]

/-- The selectors find room on the axes: an ellipsis absorbs no more than what is left over. -/
theorem room_le : (indexArrays selection).length + selection.countP Selector.takesAxis +
    ellipsisFill selection rank * selection.countP Selector.isEllipsis ≤ rank := by
  have hcounts := length_eq_counts selection
  have hsplit := selection.length_eq_countP_add_countP Selector.isEllipsis
  have hothers : (selection.filter (!·.isEllipsis)).length =
      selection.countP fun selector => ¬ selector.isEllipsis = true := by
    simp [← List.countP_eq_length_filter]
  rw [hothers] at hrank
  rw [ellipsisFill]
  rcases Nat.le_one_iff_eq_zero_or_eq_one.mp hellipses with hnone | hone
  · rw [hnone] at hcounts hsplit ⊢
    omega
  · rw [hone] at hcounts hsplit ⊢
    omega

theorem ellipsis_not_mem_hostAxes : .ellipsis ∉ hostAxes selection rank := by
  intro hmem
  rw [hostAxes_eq hrank hellipses, List.mem_append] at hmem
  rcases hmem with hexpanded | hwhole
  · have hpos : 0 < (expandEllipsis selection rank).countP Selector.isEllipsis :=
      List.countP_pos_iff.mpr ⟨_, hexpanded, rfl⟩
    rw [expandEllipsis, countP_isEllipsis_replaceEllipsis] at hpos
    omega
  · cases List.eq_of_mem_replicate hwhole

end Single

/-- Slices that move by one, one ellipsis at most, and for an array of `rank` axes not more
other selectors than axes. -/
structure Fits (selection : Selection) (rank : Nat) : Prop where
  rank : (selection.filter (!·.isEllipsis)).length ≤ rank
  ellipses : selection.countP Selector.isEllipsis ≤ 1
  units : UnitSteps selection

/-- A selection that fits is read to the end, if its index arrays have a block. -/
theorem Fits.exists_walk {block : Progress} (h : selection.Fits shape.length)
    (hblock : arrayBlock selection = .ok block) :
    ∃ reached, Walks shape (ellipsisFill selection shape.length) selection block reached := by
  refine Walks.exists_of_room h.units ?_
  rw [cursor_of_arrayBlock hblock]
  exact room_le h.rank h.ellipses

/-- The shape of the selection comes from a walk over all axes. -/
theorem exists_walk_hostAxes {result : Shape}
    (hrank : (selection.filter (!·.isEllipsis)).length ≤ shape.length)
    (hellipses : selection.countP Selector.isEllipsis ≤ 1) (hshape : Shape.Addressable shape)
    (hresult : resultShape shape selection [] true = .ok result) :
    ∃ fill block reached, arrayBlock selection = .ok block ∧
      Walks shape fill (hostAxes selection shape.length) block reached ∧
      result = reached.lengths := by
  obtain ⟨expanded, hexpanded, hsame⟩ := exists_resultShape_expandEllipsis hshape hresult
  obtain rfl := hsame (absorbsOnce_of_countP hellipses _)
  obtain ⟨block, reached, hblock, hwalk, rfl⟩ := resultShape_eq_ok.mp hexpanded
  have hle := length_expandEllipsis_le hrank hellipses
  have hcursor : reached.cursor = (expandEllipsis selection shape.length).length := by
    have hcounts := length_eq_counts (expandEllipsis selection shape.length)
    have hnone : (expandEllipsis selection shape.length).countP Selector.isEllipsis = 0 :=
      countP_isEllipsis_replaceEllipsis _ _
    rw [hwalk.cursor_eq, cursor_of_arrayBlock hblock, hcounts, hnone, Nat.mul_zero]
  rw [expandEllipsis, arrayBlock_replaceEllipsis] at hblock
  have hfit : reached.cursor + (shape.length - (expandEllipsis selection shape.length).length) ≤
      shape.length := by omega
  have hrest := hwalk.append (Walks.replicate_full hshape hfit)
  rw [← hostAxes_eq hrank hellipses] at hrest
  refine ⟨_, block, _, hblock, hrest, ?_⟩
  rw [Progress.padded, List.take_of_length_le (by rw [List.length_drop, hcursor])]

/-! ### The lengths of axes -/

theorem keptLengths_cons (axis : Selector) (axes : List Selector) (length : UInt64)
    (lengths : Shape) : keptLengths (axis :: axes) (length :: lengths) =
      if axis.isInteger then keptLengths axes lengths else length :: keptLengths axes lengths := by
  cases axis <;> simp [keptLengths]

theorem slicedLengths_cons (slice : Slice) (slices : List Slice) (length : UInt64)
    (shape : Shape) : slicedLengths (slice :: slices) (length :: shape) =
      (slice.onAxis length).count.toUInt64 :: slicedLengths slices shape := rfl

/-- Walking over integers and slices, one for each axis, adds the lengths of the slices. -/
theorem Walks.lengths_eq (h : Walks shape fill axes state reached)
    (harrays : indexArrays axes = []) (hellipsis : .ellipsis ∉ axes)
    (hslices : List.Forall₂ (fun selector slice => selector.toSlice = .ok slice) axes slices)
    (hrank : state.cursor + axes.length = shape.length) :
    reached.lengths =
      state.lengths ++ keptLengths axes (slicedLengths slices (shape.drop state.cursor)) := by
  induction h generalizing slices with
  | nil => simp [keptLengths]
  | @cons selector axes state next reached hread _ ih =>
    cases hslices with
    | @cons _ slice _ slices hslice hrest =>
      have hlt : state.cursor < shape.length := by
        rw [List.length_cons] at hrank
        omega
      have hnext : state.cursor + 1 + axes.length = shape.length := by
        rw [List.length_cons] at hrank
        omega
      have hnone := List.not_mem_of_not_mem_cons hellipsis
      rw [List.drop_eq_getElem_cons hlt, slicedLengths_cons, keptLengths_cons]
      cases hread with
      | ellipsis => exact absurd List.mem_cons_self hellipsis
      | indexArray => cases harrays
      | integer position => exact ih harrays hnone hrest hnext
      | @slice range length _ hstep hlength =>
        obtain rfl : range = slice := Except.ok.inj hslice
        rw [List.getElem?_eq_getElem hlt] at hlength
        obtain rfl := Option.some.inj hlength
        rw [ih harrays hnone hrest hnext, List.append_assoc]
        rfl

end Selection

end ChunkedArray
