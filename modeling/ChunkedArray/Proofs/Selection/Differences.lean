import ChunkedArray.Selection.Rectangle

/-!
# ChunkedArray.Proofs.Selection.Differences

Which index arrays become slices, said of the exact differences of their positions.

An index array is contiguous if its positions ascend one by one, or are one position over and
over. The differences that are looked at are clamped into the range of positions. A clamped
difference is neither one nor zero (`ofIntClamp_eq_iff`), so that the same arrays are found to
be contiguous (`IndexArray.contiguous_iff`). The others are refused with their clamped
differences.
-/

namespace ChunkedArray

/-- An integer that is clamped becomes one of the inner positions only if it is that position. -/
theorem ofIntClamp_eq_iff {step : Int} {position : Int64} (hmin : position ≠ Int64.minValue)
    (hmax : position ≠ Int64.maxValue) :
    Int64.ofIntClamp step = position ↔ step = position.toInt := by
  constructor
  · intro h
    unfold Int64.ofIntClamp at h
    split at h
    next hlow =>
      split at h
      next hhigh => rw [← h, Int64.ofIntLE_eq_ofIntClamp, Int64.toInt_ofIntClamp hlow hhigh]
      next => exact absurd h.symm hmax
    next => exact absurd h.symm hmin
  · rintro rfl
    exact Int64.ofIntClamp_toInt position

namespace IndexArray

/-- The exact differences of successive positions. -/
def exactDifferences (positions : List Int64) : List Int :=
  List.zipWith (fun position next => next.toInt - position.toInt) positions positions.tail

/-- The positions ascend one by one, or are one position over and over. A list of one position
or of none is both. -/
def Contiguous (array : IndexArray) : Prop :=
  (∀ step ∈ exactDifferences array.positions, step = 1) ∨
    ∀ step ∈ exactDifferences array.positions, step = 0

/-- The gaps that are reported for positions: their differences, clamped into the range of
positions. -/
def gaps (array : IndexArray) : List Int64 :=
  (exactDifferences array.positions).map Int64.ofIntClamp

variable {array : IndexArray} {first : Int64} {rest positions : List Int64}

theorem exactDifferences_cons_cons (first second : Int64) (rest : List Int64) :
    exactDifferences (first :: second :: rest) =
      (second.toInt - first.toInt) :: exactDifferences (second :: rest) := rfl

theorem differences_eq (positions : List Int64) :
    differences positions = (exactDifferences positions).map Int64.ofIntClamp := by
  rw [differences, exactDifferences, List.map_zipWith]

theorem all_differences_iff {step : Int64} (hmin : step ≠ Int64.minValue)
    (hmax : step ≠ Int64.maxValue) : (differences positions).all (· == step) = true ↔
      ∀ exact ∈ exactDifferences positions, exact = step.toInt := by
  simp [differences_eq, ofIntClamp_eq_iff hmin hmax]

/-- The clamped differences are all one or all zero where the exact ones are. -/
theorem contiguous_iff : array.Contiguous ↔
    ((differences array.positions).all (· == 1) || (differences array.positions).all (· == 0)) =
      true := by
  rw [Bool.or_eq_true, all_differences_iff (by decide) (by decide),
    all_differences_iff (by decide) (by decide)]
  rfl

/-- Where nothing moves, every position is the first one. -/
theorem eq_first_of_exactDifferences (h : ∀ step ∈ exactDifferences (first :: rest), step = 0) :
    ∀ position ∈ first :: rest, position = first := by
  induction rest generalizing first with
  | nil => simp
  | cons second rest ih =>
    rw [exactDifferences_cons_cons, List.forall_mem_cons] at h
    obtain rfl : second = first := Int64.toInt_inj.mp (by omega)
    rw [List.forall_mem_cons]
    exact ⟨rfl, ih h.2⟩

/-- A contiguous array is the slice from its first position to the one after its last. -/
theorem Contiguous.toSlice_eq (h : array.Contiguous) (hpositions : array.positions = first :: rest) :
    array.toSlice = .ok (.unit first (nextPosition (rest.getLastD first))) := by
  have hall := contiguous_iff.mp h
  rw [hpositions] at hall
  simp only [toSlice, hpositions, if_pos hall]

/-- Positions that are not contiguous are refused with their gaps. -/
theorem toSlice_of_not_contiguous (h : ¬ array.Contiguous) :
    array.toSlice = .error (.discontiguous (.gaps array.gaps)) := by
  have hnone := mt contiguous_iff.mpr h
  cases hpositions : array.positions with
  | nil => exact absurd (Or.inl (by simp [hpositions, exactDifferences])) h
  | cons first rest =>
    rw [hpositions] at hnone
    simp only [toSlice, hpositions, if_neg hnone]
    rw [gaps, hpositions, differences_eq]

end IndexArray

end ChunkedArray
