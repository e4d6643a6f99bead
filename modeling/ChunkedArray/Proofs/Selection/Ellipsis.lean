import ChunkedArray.Proofs.Selection.Walk

/-!
# ChunkedArray.Proofs.Selection.Ellipsis

Where a selection reads its axes, as it stands and with its ellipses expanded.

When a shape is resolved, every ellipsis absorbs axes; expanding a selection, only the
first one does. So an integer or a slice behind two ellipses is read at one axis where the
shape is resolved, and at another one where the expanded selection is
(`expandEllipsis_resolves`). What is in front of a second ellipsis is read at the same
axes by both, and a selection with nothing behind that needs an axis has the same shape.
-/

namespace ChunkedArray

namespace Selection

/-- What stands behind the first ellipsis. -/
def behindEllipsis : Selection → Selection
  | [] => []
  | .ellipsis :: rest => rest
  | _ :: rest => behindEllipsis rest

/-- No integer and no slice is behind two ellipses, if an ellipsis absorbs any axis of an
array of `rank` axes. -/
def AbsorbsOnce (selection : Selection) (rank : Nat) : Prop :=
  selection.ellipsisFill rank = 0 ∨
    ∀ selector ∈ selection.behindEllipsis.behindEllipsis, ¬ selector.takesAxis

variable {shape : Shape} {fill : Nat} {selection : Selection}
  {selector : Selector} {state state' reached block : Progress} {result : Shape}

/-! ### Behind ellipses -/

theorem countP_isEllipsis_of_not_mem (hnone : .ellipsis ∉ selection) :
    selection.countP Selector.isEllipsis = 0 := by
  rw [List.countP_eq_zero]
  intro selector hmem hellipsis
  cases selector with
  | ellipsis => exact hnone hmem
  | indexArray | integer | slice => cases hellipsis

theorem behindEllipsis_eq_nil (hnone : selection.countP Selector.isEllipsis = 0) :
    behindEllipsis selection = [] := by
  induction selection with
  | nil => rfl
  | cons selector rest ih =>
    cases selector with
    | ellipsis => simp [Selector.isEllipsis] at hnone
    | indexArray | integer | slice => exact ih (by simpa [Selector.isEllipsis] using hnone)

theorem countP_behindEllipsis (selection : Selection) :
    (behindEllipsis selection).countP Selector.isEllipsis =
      selection.countP Selector.isEllipsis - 1 := by
  induction selection with
  | nil => rfl
  | cons selector rest ih =>
    cases selector with
    | ellipsis =>
      rw [List.countP_cons_of_pos rfl]
      rfl
    | indexArray | integer | slice => simpa [behindEllipsis, Selector.isEllipsis] using ih

theorem absorbsOnce_of_countP (hellipses : selection.countP Selector.isEllipsis ≤ 1) (rank : Nat) :
    AbsorbsOnce selection rank := by
  have hbehind := countP_behindEllipsis selection
  refine Or.inr ?_
  rw [behindEllipsis_eq_nil (by omega)]
  exact nofun

/-! ### Walking over expanded selections -/

namespace Walks

/-- The selectors that are no ellipses can be read further in front as well. -/
theorem exists_filter (h : Walks shape fill selection state reached) (fill' : Nat)
    (hcursor : state'.cursor ≤ state.cursor) :
    ∃ reached', Walks shape fill' (selection.filter (!·.isEllipsis)) state' reached' := by
  induction h generalizing state' with
  | nil => exact ⟨state', .nil state'⟩
  | cons hread _ ih =>
    cases hread with
    | indexArray array =>
      obtain ⟨reached', hwalk⟩ := ih hcursor
      exact ⟨reached', .cons (.indexArray array state') hwalk⟩
    | integer position =>
      let next' : Progress := ⟨state'.lengths, state'.cursor + 1⟩
      have hnext : next'.cursor ≤ _ := Nat.succ_le_succ hcursor
      obtain ⟨reached', hwalk⟩ := ih hnext
      exact ⟨reached', .cons (.integer position state') hwalk⟩
    | @slice slice length state hstep hlength =>
      have hlt : state'.cursor < shape.length :=
        Nat.lt_of_le_of_lt hcursor (List.getElem?_eq_some_iff.mp hlength).1
      have hlength' := List.getElem?_eq_getElem hlt
      let next' : Progress :=
        ⟨state'.lengths ++ [(slice.onAxis shape[state'.cursor]).count.toUInt64], state'.cursor + 1⟩
      have hnext : next'.cursor ≤ _ := Nat.succ_le_succ hcursor
      obtain ⟨reached', hwalk⟩ := ih hnext
      exact ⟨reached', .cons (.slice state' hstep hlength') hwalk⟩
    | ellipsis state => exact ih (Nat.le_trans hcursor (Nat.le_add_right _ _))

/-- Behind an ellipsis that has absorbed its axes, the later ones can be left out. The
padded shape is the same where they absorb nothing or no axis is used behind them. -/
theorem exists_behind (h : Walks shape fill selection state reached) (fill' : Nat) :
    ∃ reached', Walks shape fill' (selection.filter (!·.isEllipsis)) state reached' ∧
      (fill = 0 ∨ (∀ selector ∈ selection.behindEllipsis, ¬ selector.takesAxis) →
        reached'.padded shape = reached.padded shape) := by
  induction h with
  | nil state => exact ⟨state, .nil state, fun _ => rfl⟩
  | @cons selector rest state next reached hread hrest ih =>
    cases hread with
    | indexArray | integer | slice =>
      obtain ⟨reached', hwalk, hpadded⟩ := ih
      exact ⟨reached', .cons (by constructor <;> assumption) hwalk, hpadded⟩
    | ellipsis state =>
      rcases Nat.eq_zero_or_pos fill with rfl | hfill
      · -- the ellipsis absorbs nothing
        obtain ⟨reached', hwalk, hpadded⟩ := ih
        rw [List.take_zero, List.append_nil] at hwalk
        exact ⟨reached', hwalk, fun _ => hpadded (Or.inl rfl)⟩
      · have hcursor : state.cursor ≤ state.cursor + fill := Nat.le_add_right _ _
        obtain ⟨reached', hwalk⟩ := hrest.exists_filter fill' hcursor
        refine ⟨reached', hwalk, ?_⟩
        rintro (hzero | hnone)
        · omega
        · have hkept : ∀ selector ∈ rest.filter (!·.isEllipsis), ¬ selector.takesAxis :=
            fun selector hmem => hnone selector (List.mem_filter.mp hmem).1
          rw [hwalk.padded_eq hkept, hrest.padded_eq hnone, Progress.padded_absorb]

/-- A selection can also be walked over with its first ellipsis replaced by the axes that
it absorbs, and without the later ones. -/
theorem exists_replaced (h : Walks shape fill selection state reached) (fill' : Nat)
    (hshape : shape.Addressable)
    (hfit : .ellipsis ∈ selection →
      fill = 0 ∨ state.cursor + selection.countP Selector.takesAxis + fill ≤ shape.length) :
    ∃ reached', Walks shape fill' (selection.replaceEllipsis fill) state reached' ∧
      (fill = 0 ∨ (∀ selector ∈ selection.behindEllipsis.behindEllipsis, ¬ selector.takesAxis) →
        reached'.padded shape = reached.padded shape) := by
  induction h with
  | nil state => exact ⟨state, .nil state, fun _ => rfl⟩
  | @cons selector rest state next reached hread hrest ih =>
    cases hread with
    | indexArray | integer | slice =>
      obtain ⟨reached', hwalk, hpadded⟩ := ih fun hmem => by
        have hroom := hfit (List.mem_cons_of_mem _ hmem)
        simp [List.countP_cons] at hroom ⊢
        omega
      exact ⟨reached', .cons (by constructor <;> assumption) hwalk, hpadded⟩
    | ellipsis state =>
      obtain ⟨reached', hwalk, hpadded⟩ := hrest.exists_behind fill'
      refine ⟨reached', append ?_ hwalk, hpadded⟩
      rcases hfit List.mem_cons_self with rfl | hroom
      · simpa using nil state
      · exact replicate_full hshape (by omega)

end Walks

/-! ### Expanded selections -/

theorem replaceEllipsis_append {front : Selection} (hnone : .ellipsis ∉ front) (fill : Nat)
    (back : Selection) :
    replaceEllipsis fill (front ++ back) = front ++ replaceEllipsis fill back := by
  induction front with
  | nil => rfl
  | cons selector front ih =>
    have hrest := ih (List.not_mem_of_not_mem_cons hnone)
    cases selector with
    | ellipsis => exact absurd List.mem_cons_self hnone
    | indexArray | integer | slice => exact congrArg _ hrest

theorem replaceEllipsis_of_not_mem (hnone : .ellipsis ∉ selection) (fill : Nat) :
    replaceEllipsis fill selection = selection := by
  simpa [replaceEllipsis] using replaceEllipsis_append hnone fill []

/-- The first ellipsis is replaced, and later ones are left out. -/
theorem replaceEllipsis_of_mem (hmem : .ellipsis ∈ selection) (fill : Nat) :
    ∃ front back, selection = front ++ .ellipsis :: back ∧ .ellipsis ∉ front ∧
      replaceEllipsis fill selection =
        front ++ (List.replicate fill (.slice .full) ++ back.filter (!·.isEllipsis)) := by
  obtain ⟨front, back, rfl, hnone⟩ := List.eq_append_cons_of_mem hmem
  exact ⟨front, back, rfl, hnone, replaceEllipsis_append hnone fill _⟩

/-- A selector is kept, at the place that what is in front of it leaves to it. -/
theorem exists_replaceEllipsis_append (fill : Nat) (front : Selection)
    (hselector : ¬ selector.isEllipsis) (back : Selection) :
    ∃ back', replaceEllipsis fill (front ++ selector :: back) =
      replaceEllipsis fill front ++ selector :: back' := by
  by_cases hmem : .ellipsis ∈ front
  · obtain ⟨first, second, rfl, hnone, hfront⟩ := replaceEllipsis_of_mem hmem fill
    refine ⟨back.filter (!·.isEllipsis), ?_⟩
    rw [hfront, List.append_assoc, replaceEllipsis_append hnone]
    simp [replaceEllipsis, hselector]
  · refine ⟨replaceEllipsis fill back, ?_⟩
    rw [replaceEllipsis_append hmem, replaceEllipsis_of_not_mem hmem]
    cases selector with
    | ellipsis => exact absurd rfl hselector
    | indexArray | integer | slice => rfl

theorem countP_isEllipsis_replaceEllipsis (fill : Nat) (selection : Selection) :
    (replaceEllipsis fill selection).countP Selector.isEllipsis = 0 := by
  by_cases hmem : .ellipsis ∈ selection
  · obtain ⟨front, back, rfl, hnone, hreplaced⟩ := replaceEllipsis_of_mem hmem fill
    rw [hreplaced]
    simp [List.countP_append, countP_isEllipsis_of_not_mem hnone, List.countP_replicate, Selector.isEllipsis,
      List.countP_filter]
  · rw [replaceEllipsis_of_not_mem hmem, countP_isEllipsis_of_not_mem hmem]

theorem countP_takesAxis_replaceEllipsis (fill : Nat) (selection : Selection) :
    (replaceEllipsis fill selection).countP Selector.takesAxis =
      selection.countP Selector.takesAxis + if .ellipsis ∈ selection then fill else 0 := by
  by_cases hmem : .ellipsis ∈ selection
  · obtain ⟨front, back, rfl, hnone, hreplaced⟩ := replaceEllipsis_of_mem hmem fill
    have hback : (back.filter (!·.isEllipsis)).countP Selector.takesAxis =
        back.countP Selector.takesAxis := by
      rw [List.countP_filter]
      refine List.countP_congr fun selector _ => ?_
      cases selector <;> simp [Selector.isEllipsis]
    rw [hreplaced, if_pos hmem, List.countP_append, List.countP_append, hback]
    simp [List.countP_replicate, List.countP_append]
    omega
  · rw [replaceEllipsis_of_not_mem hmem, if_neg hmem, Nat.add_zero]

theorem indexArrays_replaceEllipsis (fill : Nat) (selection : Selection) :
    indexArrays (replaceEllipsis fill selection) = indexArrays selection := by
  by_cases hmem : .ellipsis ∈ selection
  · obtain ⟨front, back, rfl, hnone, hreplaced⟩ := replaceEllipsis_of_mem hmem fill
    have hback : indexArrays (back.filter (!·.isEllipsis)) = indexArrays back := by
      rw [indexArrays, indexArrays, List.filterMap_filter]
      refine List.filterMap_congr fun selector _ => ?_
      cases selector <;> rfl
    have hfull : indexArrays (List.replicate fill (.slice .full)) = [] := by
      simp [indexArrays, Selector.indexArray?]
    simp only [indexArrays] at hback hfull
    simp only [hreplaced, indexArrays, List.filterMap_append, hback, hfull]
    rfl
  · rw [replaceEllipsis_of_not_mem hmem]

/-! ### The axes of index arrays -/

theorem arrayBlock_replaceEllipsis (fill : Nat) (selection : Selection) :
    arrayBlock (replaceEllipsis fill selection) = arrayBlock selection := by
  rw [arrayBlock, arrayBlock, indexArrays_replaceEllipsis]

/-- There are as many axes left as the first ellipsis absorbs. -/
theorem room_of_arrayBlock (hblock : arrayBlock selection = .ok block)
    (hmem : .ellipsis ∈ selection) (rank : Nat) :
    ellipsisFill selection rank = 0 ∨ block.cursor + selection.countP Selector.takesAxis +
      ellipsisFill selection rank ≤ rank := by
  have hone : 0 < selection.countP Selector.isEllipsis := List.countP_pos_iff.mpr ⟨_, hmem, rfl⟩
  have hlength := length_eq_counts selection
  rw [cursor_of_arrayBlock hblock, ellipsisFill]
  omega

/-! ### Shapes of expanded selections -/

/-- The expanded selection has a shape where the selection has one, and it is the same if
ellipses in front of integers and slices absorb axes only once. -/
theorem exists_resultShape_expandEllipsis (hshape : shape.Addressable)
    (h : resultShape shape selection [] true = .ok result) :
    ∃ expanded, resultShape shape (expandEllipsis selection shape.length) [] true = .ok expanded ∧
      (AbsorbsOnce selection shape.length → expanded = result) := by
  obtain ⟨block, reached, hblock, hwalk, rfl⟩ := resultShape_eq_ok.mp h
  obtain ⟨reached', hwalk', hpadded⟩ := hwalk.exists_replaced _ hshape
    fun hmem => room_of_arrayBlock hblock hmem _
  refine ⟨reached'.padded shape, ?_, hpadded⟩
  refine resultShape_eq_ok.mpr ⟨block, reached', ?_, hwalk', rfl⟩
  rw [expandEllipsis, arrayBlock_replaceEllipsis, hblock]

/-- The axis at which a selection on an array of `shape` reads the selector behind `front`. -/
def ReadAt (shape : Shape) (selection front : Selection) (axis : Nat) : Prop :=
  ∃ block state, arrayBlock selection = .ok block ∧
    advance shape selection.length front block = .ok state ∧ state.cursor = axis

/-- Index arrays use up the first axes. Then every integer and every slice takes one, and
every ellipsis as many as it absorbs. -/
theorem readAt_of_resultShape {front back : Selection} (hsplit : selection = front ++ back)
    (h : resultShape shape selection [] true = .ok result) :
    ReadAt shape selection front ((indexArrays selection).length +
      front.countP Selector.takesAxis +
      ellipsisFill selection shape.length * front.countP Selector.isEllipsis) := by
  obtain ⟨block, reached, hblock, hwalk, -⟩ := resultShape_eq_ok.mp h
  obtain ⟨state, hfront, -⟩ := Walks.exists_of_append (hsplit ▸ hwalk)
  refine ⟨block, state, hblock, ?_, ?_⟩
  · rw [hsplit]
    exact advance_eq_ok.mpr hfront
  · rw [hfront.cursor_eq, cursor_of_arrayBlock hblock, hsplit]

/-- **A selection is read at the axes of its expansion up to a second ellipsis.** An integer
or a slice behind two ellipses is read at another axis than in the expanded selection,
unless ellipses absorb nothing. Where none is, the expanded selection has the same shape. -/
theorem expandEllipsis_resolves (hshape : shape.Addressable)
    (h : resultShape shape selection [] true = .ok result) :
    (∃ expanded,
      resultShape shape (expandEllipsis selection shape.length) [] true = .ok expanded ∧
        (AbsorbsOnce selection shape.length → expanded = result)) ∧
    ∀ front selector back, selection = front ++ selector :: back → selector.takesAxis →
      ∃ back' axis axis',
        expandEllipsis selection shape.length =
          replaceEllipsis (ellipsisFill selection shape.length) front ++ selector :: back' ∧
        ReadAt shape selection front axis ∧
        ReadAt shape (expandEllipsis selection shape.length)
          (replaceEllipsis (ellipsisFill selection shape.length) front) axis' ∧
        (axis' = axis ↔ ellipsisFill selection shape.length = 0 ∨
          front.countP Selector.isEllipsis ≤ 1) := by
  have hexpanded := exists_resultShape_expandEllipsis hshape h
  refine ⟨hexpanded, ?_⟩
  intro front selector back hsplit htakes
  have hselector : ¬ selector.isEllipsis := by
    cases selector <;> simp_all [Selector.isEllipsis]
  obtain ⟨expanded, hresolved, -⟩ := hexpanded
  obtain ⟨back', hback⟩ := exists_replaceEllipsis_append (ellipsisFill selection shape.length)
    front hselector back
  rw [← hsplit] at hback
  refine ⟨back', _, _, hback, readAt_of_resultShape hsplit h,
    readAt_of_resultShape hback hresolved, ?_⟩
  rw [countP_isEllipsis_replaceEllipsis, countP_takesAxis_replaceEllipsis, expandEllipsis,
    indexArrays_replaceEllipsis]
  by_cases hmem : .ellipsis ∈ front
  · have hone : 0 < front.countP Selector.isEllipsis := List.countP_pos_iff.mpr ⟨_, hmem, rfl⟩
    rw [if_pos hmem]
    constructor
    · intro heq
      rcases Nat.eq_zero_or_pos (ellipsisFill selection shape.length) with hzero | hfill
      · exact Or.inl hzero
      · refine Or.inr (Nat.le_of_mul_le_mul_left ?_ hfill)
        omega
    · rintro (hzero | hle)
      · rw [hzero]
        omega
      · rw [show front.countP Selector.isEllipsis = 1 by omega]
        omega
  · have hnone : front.countP Selector.isEllipsis = 0 := by
      rw [← replaceEllipsis_of_not_mem hmem 0, countP_isEllipsis_replaceEllipsis]
    rw [if_neg hmem, hnone]
    simp

/-- A slice with one of two ellipses in front of it takes the second axis of the array in both
ways. -/
theorem expandEllipsis_resolves_between :
    Shape.Addressable [4, 5, 6] ∧
      resultShape [4, 5, 6] [.ellipsis, .slice (.unit 0 2), .ellipsis] [] true = .ok [4, 2, 6] ∧
      resultShape [4, 5, 6] [.slice .full, .slice (.unit 0 2)] [] true = .ok [4, 2, 6] := by
  have hshape : Shape.Addressable [4, 5, 6] := by decide
  have h : resultShape [4, 5, 6] [.ellipsis, .slice (.unit 0 2), .ellipsis] [] true =
      .ok [4, 2, 6] := rfl
  obtain ⟨⟨expanded, hexpanded, hsame⟩, -⟩ := expandEllipsis_resolves hshape h
  have honce : AbsorbsOnce [.ellipsis, .slice (.unit 0 2), .ellipsis] 3 := Or.inr nofun
  exact ⟨hshape, h, hsame honce ▸ hexpanded⟩

/-- Two ellipses that absorb an axis each where a shape is resolved, and a slice. -/
def twice : Selection := [.ellipsis, .ellipsis, .slice ⟨some 0, some 2, none⟩]

/-- The slice behind the two ellipses is measured against the third axis where the shape is
resolved, and takes the second one where the selection is expanded. -/
theorem not_resultShape_expandEllipsis :
    ¬ ∀ (shape : Shape) (selection : Selection) (result : Shape), shape.Addressable →
      resultShape shape selection [] true = .ok result →
      resultShape shape (expandEllipsis selection shape.length) [] true = .ok result := by
  intro hagree
  have hresolved : resultShape [4, 5, 6] twice [] true = .ok [4, 5, 2] := rfl
  have hexpanded : resultShape [4, 5, 6] (expandEllipsis twice 3) [] true = .ok [4, 2, 6] := rfl
  have hagreed := hagree [4, 5, 6] twice [4, 5, 2] (by decide) hresolved
  have hsame : ([4, 2, 6] : Shape) = [4, 5, 2] :=
    Except.ok.inj (hexpanded.symm.trans hagreed)
  exact absurd hsame (by decide)

end Selection

end ChunkedArray
