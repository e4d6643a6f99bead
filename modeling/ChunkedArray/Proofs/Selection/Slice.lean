import ChunkedArray.Proofs.Region.Resolve

/-!
# ChunkedArray.Proofs.Selection.Slice

What slices select on an axis, as the host reads them (`Slice.Selects`): bounds below zero
count from the end, and what is not on the axis is not selected. A slice that is measured
against an axis visits the same positions (`mem_positions_onAxis`) in ascending order
(`Stretch.pairwise_positions`), if it moves forward and all elements of the axis have a
position.
-/

namespace ChunkedArray

/-- Every axis ends where positions end, or before. -/
def Shape.Addressable (shape : Shape) : Prop :=
  ∀ length ∈ shape, length.toNat ≤ Int64.maxValue.toInt.toNat

instance (shape : Shape) : Decidable shape.Addressable :=
  List.decidableBAll _ shape

variable {length : UInt64}

theorem measurable_eq (hlength : length.toNat ≤ Int64.maxValue.toInt.toNat) :
    measurable length = length.toNat := Nat.min_eq_left hlength

/-- All elements of an axis are counted just if all of them have a position. -/
theorem toUInt64_measurable_iff : (measurable length).toUInt64 = length ↔
    length.toNat ≤ Int64.maxValue.toInt.toNat := by
  have hword : measurable length < UInt64.size :=
    Nat.lt_of_le_of_lt (measurable_le length) length.toNat_lt
  rw [← UInt64.toNat_inj, Nat.toUInt64_eq, UInt64.toNat_ofNat_of_lt' hword, measurable]
  omega

/-- A position on an axis as the host counts it: below zero it counts from the end. -/
def hostPosition (length : Nat) (position : Int64) : Int :=
  if position.toInt < 0 then position.toInt + length else position.toInt

namespace Stretch

variable {stretch : Stretch} (hstep : 0 < stretch.step.toInt)

include hstep

/-- As many positions are counted as there are steps in front of the stop. -/
theorem lt_count_iff {steps : Nat} : steps < stretch.count ↔
    stretch.start + steps * stretch.step.toInt.toNat < stretch.stop := by
  have hpos : 0 < stretch.step.toInt.toNat := by omega
  unfold count
  split
  next hnone => omega
  next hsome =>
    rw [Nat.lt_iff_add_one_le, Nat.le_div_iff_mul_le hpos, Nat.add_mul, Nat.one_mul]
    omega

theorem mem_positions_iff {position : Nat} : position ∈ stretch.positions ↔
    position < stretch.stop ∧
      ∃ steps, position = stretch.start + steps * stretch.step.toInt.toNat := by
  simp only [positions, List.mem_map, List.mem_range, lt_count_iff hstep]
  constructor
  · rintro ⟨steps, hlt, rfl⟩
    exact ⟨hlt, steps, rfl⟩
  · rintro ⟨hlt, steps, rfl⟩
    exact ⟨steps, hlt, rfl⟩

theorem pairwise_positions : stretch.positions.Pairwise (· < ·) := by
  rw [positions, List.pairwise_map]
  refine List.pairwise_lt_range.imp ?_
  intro first second hlt
  have hpos : 0 < stretch.step.toInt.toNat := by omega
  exact Nat.add_lt_add_left (Nat.mul_lt_mul_of_pos_right hlt hpos) _

end Stretch

namespace Slice

/-- Where a slice that moves forward starts on an axis, as the host counts it. -/
def hostStart (slice : Slice) (length : Nat) : Int :=
  max 0 (slice.start.elim 0 (hostPosition length))

/-- The positions of an axis that a slice that moves forward selects, as the host reads it: it
steps from its start as long as it is on the axis and in front of its stop. -/
structure Selects (slice : Slice) (length position : Nat) : Prop where
  onAxis : position < length
  lt_stop : ∀ bound, slice.stop = some bound → position < hostPosition length bound
  onStep : ∃ steps : Nat,
    (position : Int) = slice.hostStart length + steps * slice.stepOrDefault.toInt

/-- A bound is clamped to the axis as the host counts it. -/
theorem clampBound_eq (length : Nat) (bound : Int64) :
    clampBound length bound = min (hostPosition length bound).toNat length := by
  unfold clampBound hostPosition
  split <;> omega

variable {slice : Slice} {position : Nat}

/-- A full slice counts the elements of an axis that have a position. -/
theorem count_onAxis_full (length : UInt64) : (full.onAxis length).count = measurable length := by
  have hpositions : (full.onAxis length).positions = List.range' 0 (measurable length) := by
    simpa [onAxis, full] using @positions_onAxis full length rfl
  rw [← Stretch.length_positions, hpositions, List.length_range']

theorem stepOrDefault_pos (h : slice.stepOrDefault = 1) : 0 < slice.stepOrDefault.toInt := by
  rw [h]
  decide

variable (hlength : length.toNat ≤ Int64.maxValue.toInt.toNat)

include hlength

/-- A start behind the axis is moved to its end. -/
theorem onAxis_start_eq (slice : Slice) :
    ((slice.onAxis length).start : Int) = min (slice.hostStart length.toNat) length.toNat := by
  simp only [onAxis, hostStart, measurable_eq hlength]
  cases slice.start with
  | none => simp only [Option.elim_none]; omega
  | some bound =>
    simp only [Option.elim_some, clampBound_eq]
    omega

theorem lt_onAxis_stop_iff : position < (slice.onAxis length).stop ↔
    position < length.toNat ∧
      ∀ bound, slice.stop = some bound → position < hostPosition length.toNat bound := by
  simp only [onAxis, measurable_eq hlength]
  cases slice.stop with
  | none => simp
  | some bound =>
    simp only [Option.elim_some, Option.some.injEq, forall_eq', clampBound_eq]
    omega

/-- **The positions of a measured slice are those that the host selects**, for every step that
moves forward. -/
theorem mem_positions_onAxis (hstep : 0 < slice.stepOrDefault.toInt) :
    position ∈ (slice.onAxis length).positions ↔ slice.Selects length.toNat position := by
  have hstart := onAxis_start_eq hlength slice
  have hforward : 0 < (slice.onAxis length).step.toInt := hstep
  rw [Stretch.mem_positions_iff hforward, lt_onAxis_stop_iff hlength, onAxis_step]
  constructor
  · rintro ⟨⟨honAxis, hstop⟩, steps, hsteps⟩
    refine ⟨honAxis, hstop, steps, ?_⟩
    -- a position on the axis comes from a start on the axis
    have hexact : ((slice.onAxis length).start : Int) = slice.hostStart length.toNat := by omega
    rw [← hexact, hsteps, Int.natCast_add, Int.natCast_mul, Int.toNat_of_nonneg (by omega)]
  · rintro ⟨honAxis, hstop, steps, hsteps⟩
    refine ⟨⟨honAxis, hstop⟩, steps, ?_⟩
    have hmoved : 0 ≤ (steps : Int) * slice.stepOrDefault.toInt :=
      Int.mul_nonneg (Int.natCast_nonneg _) (by omega)
    have hexact : ((slice.onAxis length).start : Int) = slice.hostStart length.toNat := by omega
    rw [← hexact, ← Int.toNat_of_nonneg (Int.le_of_lt hstep), ← Int.natCast_mul,
      ← Int.natCast_add] at hsteps
    exact Int.ofNat_inj.mp hsteps

theorem count_full : (full.onAxis length).count.toUInt64 = length := by
  rw [count_onAxis_full, toUInt64_measurable_iff]
  exact hlength

end Slice

end ChunkedArray
