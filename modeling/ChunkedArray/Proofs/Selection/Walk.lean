import ChunkedArray.Proofs.Outcome
import ChunkedArray.Proofs.Selection.Slice
import ChunkedArray.Selection.ResultShape

/-!
# ChunkedArray.Proofs.Selection.Walk

What it means that the shape of a selection is resolved.

`Walks` says what reading selectors does, one constructor for each kind of selector. It says
this without errors: selectors that are read to the end are just those that can be walked
over (`advance_eq_ok`). A padded shape is the lengths at the end of a walk together with
those of the axes behind the cursor (`resultShape_eq_ok`). An ellipsis leaves these lengths
as they are (`Walks.padded_eq`); it only moves the cursor past some of them.
-/

namespace ChunkedArray

/-- Does the selector use up the axis at the cursor? -/
@[simp] def Selector.takesAxis : Selector → Bool
  | integer _ | slice _ => true
  | ellipsis | indexArray _ => false

namespace Selection

/-- The lengths so far and those of the axes that the cursor has not reached. -/
def Progress.padded (state : Progress) (shape : Shape) : Shape :=
  state.lengths ++ shape.drop state.cursor

theorem Progress.padded_absorb {shape : Shape} {state : Progress} {count : Nat} :
    Progress.padded ⟨state.lengths ++ (shape.drop state.cursor).take count, state.cursor + count⟩
      shape = state.padded shape := by
  rw [padded, padded, List.append_assoc, ← List.drop_drop, List.take_append_drop]

variable {shape : Shape} {fill selectors : Nat} {selection : Selection}
  {state next reached block : Progress} {result : Shape}

/-! ### Walking over selectors -/

/-- One selector is read: an ellipsis absorbs `fill` axes. -/
inductive Reads (shape : Shape) (fill : Nat) : Selector → Progress → Progress → Prop
  | indexArray (array : IndexArray) (state : Progress) :
      Reads shape fill (.indexArray array) state state
  | integer (position : Int64) (state : Progress) :
      Reads shape fill (.integer position) state ⟨state.lengths, state.cursor + 1⟩
  | slice {slice : Slice} {length : UInt64} (state : Progress)
      (hstep : slice.stepOrDefault = 1) (hlength : shape[state.cursor]? = some length) :
      Reads shape fill (.slice slice) state
        ⟨state.lengths ++ [(slice.onAxis length).count.toUInt64], state.cursor + 1⟩
  | ellipsis (state : Progress) :
      Reads shape fill .ellipsis state
        ⟨state.lengths ++ (shape.drop state.cursor).take fill, state.cursor + fill⟩

/-- Selectors are read one after another. -/
inductive Walks (shape : Shape) (fill : Nat) : Selection → Progress → Progress → Prop
  | nil (state : Progress) : Walks shape fill [] state state
  | cons {selector : Selector} {rest : Selection} {state next reached : Progress}
      (hread : Reads shape fill selector state next) (hrest : Walks shape fill rest next reached) :
      Walks shape fill (selector :: rest) state reached

theorem advance_eq_ok : advance shape selectors selection state = .ok reached ↔
    Walks shape (shape.length + 1 - selectors) selection state reached := by
  constructor
  · intro h
    induction selection generalizing state with
    | nil =>
      obtain rfl := Except.ok.inj h
      exact .nil _
    | cons selector rest ih =>
      cases selector with
      | indexArray array => exact .cons (.indexArray array state) (ih h)
      | integer position => exact .cons (.integer position state) (ih h)
      | ellipsis => exact .cons (.ellipsis state) (ih h)
      | slice slice =>
        simp only [advance] at h
        split at h
        · cases h
        next hstep =>
          split at h
          · cases h
          next length hlength => exact .cons (.slice state (not_not.mp hstep) hlength) (ih h)
  · intro h
    induction h with
    | nil => rfl
    | cons hread _ ih =>
      cases hread with
      | indexArray | integer | ellipsis => exact ih
      | slice state hstep hlength =>
        rw [advance, if_neg (not_not.mpr hstep), hlength]
        exact ih

theorem withoutAxes_nil (shape : Shape) : withoutAxes [] shape = shape := by
  simp [withoutAxes]

theorem withoutAxes_concat (dropped : DropAxes) (shape : Shape) (length : UInt64) :
    withoutAxes dropped (shape ++ [length]) =
      withoutAxes dropped shape ++ if shape.length ∈ dropped then [] else [length] := by
  by_cases hmem : shape.length ∈ dropped <;>
    simp [withoutAxes, List.zipIdx_append, List.filter_append, hmem]

/-- The shape of a selection comes from a walk over it. -/
theorem resultShape_eq_ok_iff {dropped : DropAxes} {pad : Bool} :
    resultShape shape selection dropped pad = .ok result ↔
      ∃ block reached, arrayBlock selection = .ok block ∧
        Walks shape (selection.ellipsisFill shape.length) selection block reached ∧
        result = withoutAxes dropped
          (reached.lengths ++ if pad then shape.drop reached.cursor else []) := by
  simp only [resultShape, Outcome.bind_eq_ok, advance_eq_ok, Outcome.pure_eq_ok]
  constructor
  · intro h
    obtain ⟨block, hblock, reached, hwalk, hresult⟩ := h
    exact ⟨block, reached, hblock, hwalk, hresult.symm⟩
  · intro h
    obtain ⟨block, reached, hblock, hwalk, hresult⟩ := h
    exact ⟨block, hblock, reached, hwalk, hresult.symm⟩

/-- The padded shape of a selection, with no axis dropped, comes from a walk over it. -/
theorem resultShape_eq_ok : resultShape shape selection [] true = .ok result ↔
    ∃ block reached, arrayBlock selection = .ok block ∧
      Walks shape (selection.ellipsisFill shape.length) selection block reached ∧
      result = reached.padded shape := by
  simp only [resultShape_eq_ok_iff, withoutAxes_nil, if_true, Progress.padded]

/-- Axes are dropped last. -/
theorem resultShape_dropped {pad : Bool} (h : resultShape shape selection [] pad = .ok result)
    (dropped : DropAxes) :
    resultShape shape selection dropped pad = .ok (withoutAxes dropped result) := by
  obtain ⟨block, reached, hblock, hwalk, rfl⟩ := resultShape_eq_ok_iff.mp h
  exact resultShape_eq_ok_iff.mpr ⟨block, reached, hblock, hwalk, by rw [withoutAxes_nil]⟩

/-- Every slice is of unit step. -/
def UnitSteps (selection : Selection) : Prop :=
  ∀ range, .slice range ∈ selection → range.stepOrDefault = 1

theorem UnitSteps.of_cons {selector : Selector} (h : UnitSteps (selector :: selection)) :
    UnitSteps selection :=
  fun range hmem => h range (List.mem_cons_of_mem _ hmem)

namespace Walks

theorem append {before after : Selection} (h : Walks shape fill before state next)
    (h' : Walks shape fill after next reached) :
    Walks shape fill (before ++ after) state reached := by
  induction h with
  | nil => exact h'
  | cons hread _ ih => exact .cons hread (ih h')

theorem exists_of_append {before after : Selection}
    (h : Walks shape fill (before ++ after) state reached) :
    ∃ next, Walks shape fill before state next ∧ Walks shape fill after next reached := by
  induction before generalizing state with
  | nil => exact ⟨state, .nil state, h⟩
  | cons selector before ih =>
    cases h with
    | cons hread hrest =>
      obtain ⟨next, hbefore, hafter⟩ := ih hrest
      exact ⟨next, .cons hread hbefore, hafter⟩

/-- Whole axes are copied. -/
theorem replicate_full (hshape : shape.Addressable) {count : Nat}
    (hfit : state.cursor + count ≤ shape.length) :
    Walks shape fill (List.replicate count (.slice .full)) state
      ⟨state.lengths ++ (shape.drop state.cursor).take count, state.cursor + count⟩ := by
  induction count generalizing state with
  | zero => simpa using nil state
  | succ count ih =>
    have hlt : state.cursor < shape.length := by omega
    have hlength : shape[state.cursor]? = some shape[state.cursor] := List.getElem?_eq_getElem hlt
    have hcount : (Slice.full.onAxis shape[state.cursor]).count.toUInt64 = shape[state.cursor] :=
      Slice.count_full (hshape _ (List.getElem_mem hlt))
    let next : Progress := ⟨state.lengths ++ [shape[state.cursor]], state.cursor + 1⟩
    have hnext : next.cursor + count ≤ shape.length := by
      show state.cursor + 1 + count ≤ shape.length
      omega
    rw [List.drop_eq_getElem_cons hlt, List.take_succ_cons]
    refine .cons (.slice state rfl hlength) ?_
    rw [hcount]
    simpa [next, Nat.add_assoc, Nat.add_comm 1 count] using ih hnext

/-- How far the cursor moves. -/
theorem cursor_eq (h : Walks shape fill selection state reached) :
    reached.cursor = state.cursor + selection.countP Selector.takesAxis +
      fill * selection.countP Selector.isEllipsis := by
  induction h with
  | nil => simp
  | cons hread _ ih =>
    rw [ih]
    cases hread with
    | indexArray => simp [Selector.isEllipsis]
    | integer | slice =>
      simp [List.countP_cons, Selector.isEllipsis]
      omega
    | ellipsis =>
      simp [List.countP_cons, Selector.isEllipsis, Nat.mul_add]
      omega

/-- Slices of unit step are read to the end if each of them finds an axis. -/
theorem exists_iff (hunit : UnitSteps selection) :
    (∃ reached, Walks shape fill selection state reached) ↔
      ∀ front range back, selection = front ++ .slice range :: back →
        state.cursor + front.countP Selector.takesAxis +
          fill * front.countP Selector.isEllipsis < shape.length := by
  constructor
  · intro h front range back hsplit
    obtain ⟨reached, hwalk⟩ := h
    rw [hsplit] at hwalk
    obtain ⟨next, hfront, hback⟩ := hwalk.exists_of_append
    rw [← hfront.cursor_eq]
    cases hback with
    | cons hread _ =>
      cases hread with
      | slice _ _ hlength => exact (List.getElem?_eq_some_iff.mp hlength).1
  · intro hroom
    induction selection generalizing state with
    | nil => exact ⟨state, .nil state⟩
    | cons selector rest ih =>
      have hnext : ∃ next, Reads shape fill selector state next := by
        cases selector with
        | indexArray array => exact ⟨_, .indexArray array state⟩
        | integer position => exact ⟨_, .integer position state⟩
        | ellipsis => exact ⟨_, .ellipsis state⟩
        | slice range =>
          have hlt : state.cursor < shape.length := by simpa using hroom [] range rest rfl
          exact ⟨_, .slice state (hunit range List.mem_cons_self) (List.getElem?_eq_getElem hlt)⟩
      obtain ⟨next, hread⟩ := hnext
      have hcursor := (cons hread (.nil next)).cursor_eq
      have hrest : ∀ front range back, rest = front ++ .slice range :: back →
          next.cursor + front.countP Selector.takesAxis +
            fill * front.countP Selector.isEllipsis < shape.length := by
        intro front range back hsplit
        have hslice := hroom (selector :: front) range back (congrArg _ hsplit)
        simp only [List.countP_cons, List.countP_nil, Nat.mul_add] at hcursor hslice
        omega
      obtain ⟨reached, hwalk⟩ := ih hunit.of_cons hrest
      exact ⟨reached, .cons hread hwalk⟩

/-- Slices of unit step are read to the end if there is room for all that the selectors take. -/
theorem exists_of_room (hunit : UnitSteps selection)
    (hroom : state.cursor + selection.countP Selector.takesAxis +
      fill * selection.countP Selector.isEllipsis ≤ shape.length) :
    ∃ reached, Walks shape fill selection state reached := by
  refine (exists_iff hunit).mpr fun front range back hsplit => ?_
  rw [hsplit, List.countP_append, List.countP_append, List.countP_cons_of_pos rfl,
    Nat.mul_add] at hroom
  omega

/-- Selectors that use up no axis leave the padded shape as it is. -/
theorem padded_eq (h : Walks shape fill selection state reached)
    (hnone : ∀ selector ∈ selection, ¬ selector.takesAxis) :
    reached.padded shape = state.padded shape := by
  induction h with
  | nil => rfl
  | cons hread _ ih =>
    rw [ih (List.forall_mem_of_forall_mem_cons hnone)]
    cases hread with
    | indexArray => rfl
    | ellipsis => exact Progress.padded_absorb
    | integer | slice => simp at hnone

/-- A slice that is read is of unit step. -/
theorem step_eq_one (h : Walks shape fill selection state reached) : UnitSteps selection := by
  induction h with
  | nil => exact nofun
  | cons hread _ ih =>
    intro range hmem
    rcases List.mem_cons.mp hmem with rfl | hmem
    · cases hread with
      | slice _ hstep _ => exact hstep
    · exact ih range hmem

end Walks

/-! ### The axes that are used up -/

theorem cursor_of_arrayBlock (h : arrayBlock selection = .ok block) :
    block.cursor = (indexArrays selection).length := by
  simp only [arrayBlock] at h
  split at h
  next hempty =>
    obtain rfl := Except.ok.inj h
    rw [List.isEmpty_iff.mp hempty]
    rfl
  next =>
    obtain ⟨lengths, -, hblock⟩ := Outcome.bind_eq_ok.mp h
    obtain rfl := Except.ok.inj hblock
    rfl

theorem mem_of_mem_indexArrays {array : IndexArray} (h : array ∈ indexArrays selection) :
    .indexArray array ∈ selection := by
  obtain ⟨selector, hmem, harray⟩ := List.mem_filterMap.mp h
  cases selector with
  | indexArray other =>
    obtain rfl := Option.some.inj harray
    exact hmem
  | integer | slice | ellipsis => cases harray

theorem arrayBlock_nil (h : indexArrays selection = []) :
    arrayBlock selection = .ok ⟨[], 0⟩ := by
  rw [arrayBlock, h]
  rfl

theorem arrayBlock_singleton {array : IndexArray} {length : UInt64}
    (h : indexArrays selection = [array]) (hflat : array.shape = [length]) :
    arrayBlock selection = .ok ⟨[length], 1⟩ := by
  have hbroadcast : Shape.broadcast [[length]] = .ok [length] := by
    simp [Shape.broadcast, Shape.maxRank, Shape.padTo, Shape.merge, Shape.mergeAxis]
  rw [arrayBlock, h]
  show (Shape.broadcast [array.shape] >>= fun lengths => .ok (⟨lengths, 1⟩ : Progress)) = _
  rw [hflat, hbroadcast]
  rfl

/-- Every selector is an index array, uses up an axis, or is an ellipsis. -/
theorem length_eq_counts (selection : Selection) : selection.length =
    (indexArrays selection).length + selection.countP Selector.takesAxis +
      selection.countP Selector.isEllipsis := by
  rw [indexArrays, List.length_filterMap_eq_countP]
  induction selection with
  | nil => rfl
  | cons selector rest ih =>
    cases selector <;>
      simp [List.countP_cons, Selector.indexArray?, Selector.isEllipsis] at ih ⊢ <;> omega

end Selection

end ChunkedArray
