import ChunkedArray.Selection.Broadcast
import Mathlib.Data.List.Pairwise

/-!
# ChunkedArray.Proofs.Selection.Broadcast

When shapes have a common one.

Shapes are aligned at their last axis, and two of them agree on an axis if one of the two
lengths is one, or both are the same (`Shape.Agrees`). A place counts the axes from the last one,
and a shape has length one at all places in front of its axes (`Shape.lengthAt`), so that padding
does not change a shape. Merging keeps, at every place, the lengths that are not one
(`Shape.mergeAxis_keeps`). What agrees with two shapes therefore agrees with the merged one, and
shapes that agree in pairs can be merged one after another (`Shape.exists_broadcast`).
-/

namespace ChunkedArray

namespace Shape

/-- Two lengths at one axis go together: a length of one gives way to any other. -/
def Agrees (a b : UInt64) : Prop := a = 1 ∨ b = 1 ∨ a = b

instance (a b : UInt64) : Decidable (Agrees a b) :=
  inferInstanceAs (Decidable (a = 1 ∨ b = 1 ∨ a = b))

/-- Two shapes agree on each axis that both of them have, counted from the last. -/
def Aligned (shape other : Shape) : Prop :=
  ∀ axis ∈ shape.reverse.zip other.reverse, Agrees axis.1 axis.2

instance (shape other : Shape) : Decidable (Aligned shape other) :=
  List.decidableBAll (fun axis : UInt64 × UInt64 => Agrees axis.1 axis.2) _

/-- Any two of the shapes agree. -/
def Broadcastable (shapes : List Shape) : Prop :=
  ∀ shape ∈ shapes, ∀ other ∈ shapes, Aligned shape other

instance (shapes : List Shape) : Decidable (Broadcastable shapes) :=
  @List.decidableBAll _ _ (fun shape => List.decidableBAll (Aligned shape) shapes) shapes

/-- The length at a place counted from the last axis. It is one in front of the first axis. -/
def lengthAt (shape : Shape) (place : Nat) : UInt64 := shape.reverse[place]?.getD 1

variable {a b c : UInt64} {shape other first second merged whole block : Shape}
  {shapes : List Shape} {place rank : Nat}

/-! ### Lengths at places -/

theorem lengthAt_of_le (h : shape.length ≤ place) : shape.lengthAt place = 1 := by
  rw [lengthAt, List.getElem?_eq_none (by simpa using h)]
  rfl

theorem lengthAt_cons (length : UInt64) (shape : Shape) (place : Nat) :
    lengthAt (length :: shape) place =
      if place = shape.length then length else shape.lengthAt place := by
  rcases Nat.lt_trichotomy place shape.length with hlt | rfl | hgt
  · have hplace : place < shape.reverse.length := by simpa using hlt
    rw [lengthAt, List.reverse_cons, List.getElem?_append_left hplace, if_neg (Nat.ne_of_lt hlt),
      lengthAt]
  · simp [lengthAt]
  · rw [lengthAt_of_le hgt, if_neg (Nat.ne_of_gt hgt), lengthAt_of_le (Nat.le_of_lt hgt)]

/-- Axes of length one in front make no difference. -/
theorem lengthAt_padTo (rank : Nat) (shape : Shape) (place : Nat) :
    (padTo rank shape).lengthAt place = shape.lengthAt place := by
  rw [padTo]
  induction rank - shape.length with
  | zero => rfl
  | succ count ih =>
    rw [List.replicate_succ, List.cons_append, lengthAt_cons, ih]
    split
    next hplace => rw [lengthAt_of_le (by simp [hplace])]
    next => rfl

theorem length_padTo (h : shape.length ≤ rank) : (padTo rank shape).length = rank := by
  rw [padTo, List.length_append, List.length_replicate]
  omega

/-- A shape is known by its rank and its lengths. -/
theorem eq_of_lengthAt (hrank : first.length = second.length)
    (h : ∀ place, first.lengthAt place = second.lengthAt place) : first = second := by
  rw [← List.reverse_inj]
  refine List.ext_getElem (by simpa using hrank) fun place hfirst hsecond => ?_
  have hplace := h place
  rw [lengthAt, lengthAt, List.getElem?_eq_getElem hfirst, List.getElem?_eq_getElem hsecond]
    at hplace
  exact hplace

/-- Shapes agree if they do at every place, since a missing axis agrees with any other. -/
theorem aligned_iff :
    Aligned shape other ↔ ∀ place, Agrees (shape.lengthAt place) (other.lengthAt place) := by
  constructor
  · intro h place
    rcases Nat.lt_or_ge place shape.length with hshape | hshape
    · rcases Nat.lt_or_ge place other.length with hother | hother
      · have hfirst : place < shape.reverse.length := by simpa using hshape
        have hsecond : place < other.reverse.length := by simpa using hother
        have hzip : (shape.reverse.zip other.reverse)[place]? =
            some (shape.reverse[place], other.reverse[place]) :=
          List.getElem?_zip_eq_some.mpr
            ⟨List.getElem?_eq_getElem hfirst, List.getElem?_eq_getElem hsecond⟩
        rw [lengthAt, lengthAt, List.getElem?_eq_getElem hfirst, List.getElem?_eq_getElem hsecond]
        exact h _ (List.mem_of_getElem? hzip)
      · exact Or.inr (Or.inl (lengthAt_of_le hother))
    · exact Or.inl (lengthAt_of_le hshape)
  · intro h axis hmem
    obtain ⟨place, hplace⟩ := List.mem_iff_getElem?.mp hmem
    obtain ⟨hfirst, hsecond⟩ := List.getElem?_zip_eq_some.mp hplace
    have hagrees := h place
    rw [lengthAt, lengthAt, hfirst, hsecond] at hagrees
    exact hagrees

/-! ### Merging -/

theorem exists_mergeAxis (h : Agrees a b) : ∃ length, mergeAxis a b = some length := by
  by_cases hone : a = 1
  · exact ⟨b, by simp [mergeAxis, hone]⟩
  · have hmerged : b = 1 ∨ b = a := (h.resolve_left hone).imp id Eq.symm
    exact ⟨a, by simp [mergeAxis, hone, hmerged]⟩

/-- Merged axes keep what is not one. -/
theorem mergeAxis_keeps (h : mergeAxis a b = some c) :
    (a ≠ 1 → c = a) ∧ (b ≠ 1 → c = b) ∧ (a = 1 → b = 1 → c = 1) := by
  unfold mergeAxis at h
  split at h
  next hone =>
    obtain rfl := Option.some.inj h
    exact ⟨fun hne => absurd hone hne, fun _ => rfl, fun _ hb => hb⟩
  next hne =>
    split at h
    next hb =>
      obtain rfl := Option.some.inj h
      refine ⟨fun _ => rfl, fun hother => ?_, fun hone => absurd hone hne⟩
      exact (hb.resolve_left hother).symm
    next => cases h

theorem exists_merge (hrank : first.length = second.length)
    (h : ∀ place, Agrees (first.lengthAt place) (second.lengthAt place)) :
    ∃ merged, merge first second = some merged := by
  induction first generalizing second with
  | nil => exact ⟨[], rfl⟩
  | cons a first ih =>
    cases second with
    | nil => cases hrank
    | cons b second =>
      have hranks : first.length = second.length := Nat.succ.inj hrank
      have hhead : Agrees a b := by
        have hplace := h first.length
        rwa [lengthAt_cons, lengthAt_cons, if_pos rfl, if_pos hranks] at hplace
      have hrest : ∀ place, Agrees (lengthAt first place) (lengthAt second place) := by
        intro place
        by_cases hplace : place = first.length
        · exact Or.inl (lengthAt_of_le (Nat.le_of_eq hplace.symm))
        · have hagrees := h place
          rwa [lengthAt_cons, lengthAt_cons, if_neg hplace, if_neg (hranks ▸ hplace)] at hagrees
      obtain ⟨length, hlength⟩ := exists_mergeAxis hhead
      obtain ⟨merged, hmerged⟩ := ih hranks hrest
      refine ⟨length :: merged, ?_⟩
      rw [merge, hlength, hmerged]
      rfl

/-- Shapes of one rank are merged axis by axis. -/
theorem mergeAxis_lengthAt (hrank : first.length = second.length)
    (h : merge first second = some merged) : merged.length = first.length ∧
      ∀ place, mergeAxis (first.lengthAt place) (second.lengthAt place) =
        some (merged.lengthAt place) := by
  induction first generalizing second merged with
  | nil =>
    obtain rfl := List.length_eq_zero_iff.mp hrank.symm
    obtain rfl := Option.some.inj h
    exact ⟨rfl, fun _ => rfl⟩
  | cons a first ih =>
    cases second with
    | nil => cases hrank
    | cons b second =>
      obtain ⟨length, hlength, hrest⟩ := Option.bind_eq_some_iff.mp h
      obtain ⟨lengths, hlengths, hpure⟩ := Option.bind_eq_some_iff.mp hrest
      obtain rfl := Option.some.inj hpure
      have hranks : first.length = second.length := Nat.succ.inj hrank
      obtain ⟨hmerged, hplaces⟩ := ih hranks hlengths
      refine ⟨congrArg Nat.succ hmerged, fun place => ?_⟩
      rw [lengthAt_cons, lengthAt_cons, lengthAt_cons, ← hranks, hmerged]
      split
      · exact hlength
      · exact hplaces place

/-- What agrees with two shapes agrees with the merged one. -/
theorem aligned_merge (hrank : first.length = second.length)
    (h : merge first second = some merged) (hfirst : Aligned first other)
    (hsecond : Aligned second other) : Aligned merged other := by
  rw [aligned_iff] at hfirst hsecond ⊢
  intro place
  obtain ⟨hkeeps, hkeeps', hones⟩ := mergeAxis_keeps ((mergeAxis_lengthAt hrank h).2 place)
  by_cases ha : first.lengthAt place = 1
  · by_cases hb : second.lengthAt place = 1
    · exact Or.inl (hones ha hb)
    · rw [hkeeps' hb]
      exact hsecond place
  · rw [hkeeps ha]
    exact hfirst place

/-- Shapes of one rank that agree in pairs are merged one after another. -/
theorem exists_foldlM_merge (hranks : ∀ shape ∈ shapes, shape.length = whole.length)
    (h : (whole :: shapes).Pairwise Aligned) :
    ∃ block, shapes.foldlM merge whole = some block := by
  induction shapes generalizing whole with
  | nil => exact ⟨whole, rfl⟩
  | cons shape shapes ih =>
    obtain ⟨hrank, hrest⟩ := List.forall_mem_cons.mp hranks
    obtain ⟨hwhole, htail⟩ := List.pairwise_cons.mp h
    obtain ⟨hshape, hpairs⟩ := List.pairwise_cons.mp htail
    obtain ⟨merged, hmerged⟩ :=
      exists_merge hrank.symm (aligned_iff.mp (hwhole shape List.mem_cons_self))
    have hnext : (merged :: shapes).Pairwise Aligned := by
      refine List.pairwise_cons.mpr ⟨fun other hmem => ?_, hpairs⟩
      exact aligned_merge hrank.symm hmerged (hwhole other (List.mem_cons_of_mem _ hmem))
        (hshape other hmem)
    rw [← (mergeAxis_lengthAt hrank.symm hmerged).1] at hrest
    obtain ⟨block, hblock⟩ := ih hrest hnext
    refine ⟨block, ?_⟩
    rw [List.foldlM_cons, hmerged]
    exact hblock

/-- A row of merges keeps, at each place, what is not one. -/
theorem foldlM_merge_keeps (hranks : ∀ shape ∈ shapes, shape.length = whole.length)
    (h : shapes.foldlM merge whole = some block) : block.length = whole.length ∧
      ∀ place, (∀ shape ∈ whole :: shapes, shape.lengthAt place ≠ 1 →
          block.lengthAt place = shape.lengthAt place) ∧
        ((∀ shape ∈ whole :: shapes, shape.lengthAt place = 1) → block.lengthAt place = 1) := by
  induction shapes generalizing whole with
  | nil =>
    obtain rfl : whole = block := Option.some.inj h
    simp
  | cons shape shapes ih =>
    rw [List.foldlM_cons] at h
    obtain ⟨merged, hmerge, hfold⟩ := Option.bind_eq_some_iff.mp h
    obtain ⟨hshape, hrest⟩ := List.forall_mem_cons.mp hranks
    obtain ⟨hrank, hplaces⟩ := mergeAxis_lengthAt hshape.symm hmerge
    rw [← hrank] at hrest
    obtain ⟨hblock, hkeeps⟩ := ih hrest hfold
    refine ⟨hblock.trans hrank, fun place => ?_⟩
    obtain ⟨hwide, hones⟩ := hkeeps place
    obtain ⟨hwhole, hother, hone⟩ := mergeAxis_keeps (hplaces place)
    simp only [List.forall_mem_cons] at hwide hones ⊢
    refine ⟨⟨fun hne => ?_, fun hne => ?_, hwide.2⟩, fun hall => ?_⟩
    · rw [← hwhole hne]
      exact hwide.1 (hwhole hne ▸ hne)
    · rw [← hother hne]
      exact hwide.1 (hother hne ▸ hne)
    · exact hones ⟨hone hall.1 hall.2.1, hall.2.2⟩

/-! ### The largest rank -/

theorem foldl_max_le_iff {lengths : List Nat} {least bound : Nat} :
    lengths.foldl max least ≤ bound ↔ ∀ length ∈ least :: lengths, length ≤ bound := by
  induction lengths generalizing least with
  | nil => simp
  | cons length lengths ih =>
    rw [List.foldl_cons, ih]
    simp only [List.forall_mem_cons, Nat.max_le, and_assoc]

theorem maxRank_le_iff {bound : Nat} :
    maxRank shapes ≤ bound ↔ ∀ shape ∈ shapes, shape.length ≤ bound := by
  rw [maxRank, foldl_max_le_iff]
  simp

theorem length_le_maxRank {shape : Shape} (h : shape ∈ shapes) :
    shape.length ≤ maxRank shapes :=
  maxRank_le_iff.mp (Nat.le_refl _) shape h

/-! ### Broadcasting -/

/-- Padded shapes are merged, with the shape of which all axes have length one in front. -/
theorem broadcast_eq (shapes : List Shape) :
    broadcast shapes =
      match (shapes.map (padTo (maxRank shapes))).foldlM merge (padTo (maxRank shapes) []) with
      | some shape => .ok shape
      | none => .error (.incompatibleBroadcast shapes) := by
  rw [broadcast, padTo, List.append_nil]
  rfl

theorem length_padded (shapes : List Shape) : ∀ shape ∈ shapes.map (padTo (maxRank shapes)),
    shape.length = (padTo (maxRank shapes) []).length := by
  rw [List.forall_mem_map]
  intro shape hmem
  rw [length_padTo (length_le_maxRank hmem), length_padTo (Nat.zero_le _)]

theorem aligned_padTo (h : Aligned first second) :
    Aligned (padTo rank first) (padTo rank second) := by
  simpa only [aligned_iff, lengthAt_padTo] using h

/-- **Shapes that agree in pairs have a common shape**, of the largest rank among them. -/
theorem exists_broadcast (h : Broadcastable shapes) :
    ∃ block, broadcast shapes = .ok block ∧ block.length = maxRank shapes := by
  have hpairs : (([] :: shapes).map (padTo (maxRank shapes))).Pairwise Aligned := by
    refine List.pairwise_map.mpr (List.pairwise_cons.mpr ⟨fun other _ => ?_, ?_⟩)
    · exact aligned_padTo (aligned_iff.mpr fun _ => Or.inl rfl)
    · exact List.pairwise_of_forall_mem_list fun shape hshape other hother =>
        aligned_padTo (h shape hshape other hother)
  obtain ⟨block, hblock⟩ := exists_foldlM_merge (length_padded shapes) hpairs
  have hrank := (foldlM_merge_keeps (length_padded shapes) hblock).1
  rw [length_padTo (Nat.zero_le _)] at hrank
  refine ⟨block, ?_, hrank⟩
  rw [broadcast_eq, hblock]

end Shape

end ChunkedArray
