import ChunkedArray.Proofs.Selection.Slice

/-!
# ChunkedArray.Proofs.Selection.Stretch

Slices on an axis, measured in machine words.

The bounds and the count of a measured slice are natural numbers. `Slice.measure?` takes the
same measure in machine words, and gives up where a sum or a difference is not a word. On an
axis that ends where positions end, or before, it never does (`measure?_eq`). Together with
what a measured slice visits this is `Slice.onAxis_as_host`: slices that move forward are
measured as the host measures them.
-/

namespace ChunkedArray

namespace Slice

variable {slice : Slice} {length : UInt64}

theorem isEmpty_onAxis_iff (hlength : length.toNat ≤ Int64.maxValue.toInt.toNat)
    (hstep : 0 < slice.stepOrDefault.toInt) :
    (slice.onAxis length).isEmpty ↔ ∀ position, ¬ slice.Selects length.toNat position := by
  rw [Stretch.isEmpty, beq_iff_eq, ← Stretch.length_positions, List.length_eq_zero_iff,
    List.eq_nil_iff_forall_not_mem]
  exact forall_congr' fun position => not_congr (mem_positions_onAxis hlength hstep)

/-! ### In machine words -/

/-- The signed word with a value, if there is one. -/
def word? (value : Int) : Option Int64 :=
  if h : Int64.minValue.toInt ≤ value ∧ value ≤ Int64.maxValue.toInt then
    some (Int64.ofIntLE value h.1 h.2)
  else none

/-- The next word, if there is one. -/
def successor? (word : UInt64) : Option UInt64 :=
  if word.toNat + 1 < UInt64.size then some (word + 1) else none

/-- A bound on an axis of `size` elements, where the sum with the size is a word. -/
def clampBound? (size bound : Int64) : Option Int64 :=
  if bound < 0 then (word? (bound.toInt + size.toInt)).map fun sum => if sum < 0 then 0 else sum
  else some (if bound < size then bound else size)

/-- How many positions there are between two bounds, where the difference of the bounds is a
word and so is the quotient rounded up. -/
def count? (start stop step : Int64) : Option UInt64 :=
  if stop ≤ start ∨ step ≤ 0 then some 0
  else do
    let span ← word? (stop.toInt - start.toInt)
    let steps := span.toUInt64 / step.toUInt64
    if span.toUInt64 % step.toUInt64 = 0 then some steps else successor? steps

/-- Start, stop and count of the slice on an axis, where nothing on the way leaves the words. -/
def measure? (slice : Slice) (length : UInt64) : Option (Int64 × Int64 × UInt64) := do
  let size := (word? length.toNat).getD Int64.maxValue
  let start ← slice.start.elim (some 0) (clampBound? size)
  let stop ← slice.stop.elim (some size) (clampBound? size)
  let count ← count? start stop slice.stepOrDefault
  return (start, stop, count)

theorem toNat_toUInt64_of_nonneg {word : Int64} (h : 0 ≤ word.toInt) :
    word.toUInt64.toNat = word.toInt.toNat :=
  Int64.toNat_toUInt64_of_le (Int64.le_iff_toInt_le.mpr h)

theorem exists_successor (word : UInt64) (h : word.toNat + 1 < UInt64.size) :
    ∃ next, successor? word = some next ∧ next.toNat = word.toNat + 1 :=
  ⟨word + 1, if_pos h, by rw [UInt64.toNat_add]; exact Nat.mod_eq_of_lt h⟩

theorem exists_word (value : Int) (hmin : Int64.minValue.toInt ≤ value)
    (hmax : value ≤ Int64.maxValue.toInt) : ∃ word, word? value = some word ∧ word.toInt = value :=
  ⟨Int64.ofIntLE value hmin hmax, dif_pos ⟨hmin, hmax⟩, Int64.toInt_ofIntLE⟩

/-- A bound is clamped without leaving the words. -/
theorem exists_clampBound {size : Int64} (hsize : 0 ≤ size.toInt) (bound : Int64) :
    ∃ word, clampBound? size bound = some word ∧
      word.toInt = clampBound size.toInt.toNat bound := by
  have hmin := Int64.minValue_le_toInt bound
  have hmax := Int64.toInt_le size
  have hzero : Int64.toInt 0 = 0 := rfl
  simp only [clampBound?, clampBound, Int64.lt_iff_toInt_lt, hzero]
  by_cases hneg : bound.toInt < 0
  · obtain ⟨sum, hsum, hvalue⟩ := exists_word (bound.toInt + size.toInt) (by omega) (by omega)
    refine ⟨if sum.toInt < 0 then 0 else sum, by rw [if_pos hneg, hsum]; rfl, ?_⟩
    rw [if_pos hneg]
    split <;> omega
  · refine ⟨if bound.toInt < size.toInt then bound else size, if_neg hneg, ?_⟩
    rw [if_neg hneg]
    split <;> omega

/-- An absent bound stands for a word as well. -/
theorem exists_bound {size : Int64} (hsize : 0 ≤ size.toInt) (default : Int64)
    (bound : Option Int64) :
    ∃ word, bound.elim (some default) (clampBound? size) = some word ∧
      word.toInt = bound.elim default.toInt fun bound => clampBound size.toInt.toNat bound := by
  cases bound with
  | none => exact ⟨default, rfl, rfl⟩
  | some bound => exact exists_clampBound hsize bound

/-- The quotient rounded up is the quotient, or its successor where something is left. -/
theorem ceil_div_eq {span step : Nat} (hstep : 0 < step) :
    (span + step - 1) / step = if span % step = 0 then span / step else span / step + 1 := by
  have hsplit := Nat.div_add_mod span step
  have hlt := Nat.mod_lt span hstep
  split
  next hzero =>
    rw [Nat.div_eq_iff hstep]
    constructor <;> grind
  next hrest =>
    rw [Nat.div_eq_iff hstep]
    constructor <;> grind

/-- Positions are counted without leaving the words. -/
theorem exists_count (start stop step : Int64) (hstart : 0 ≤ start.toInt)
    (hstop : 0 ≤ stop.toInt) : ∃ count, count? start stop step = some count ∧
      count.toNat = Stretch.count ⟨start.toInt.toNat, stop.toInt.toNat, step⟩ := by
  have hmin : Int64.minValue.toInt ≤ 0 := by decide
  have hmax := Int64.toInt_le stop
  have hzero : Int64.toInt 0 = 0 := rfl
  simp only [count?, Stretch.count, Int64.le_iff_toInt_le, hzero]
  by_cases hnone : stop.toInt ≤ start.toInt ∨ step.toInt ≤ 0
  · refine ⟨0, if_pos hnone, ?_⟩
    rw [if_pos (by omega)]
    rfl
  · obtain ⟨span, hspan, hvalue⟩ := exists_word (stop.toInt - start.toInt) (by omega) (by omega)
    have hlength : span.toUInt64.toNat = stop.toInt.toNat - start.toInt.toNat := by
      rw [toNat_toUInt64_of_nonneg (by omega)]
      omega
    have hwidth : step.toUInt64.toNat = step.toInt.toNat :=
      toNat_toUInt64_of_nonneg (by omega)
    have hsteps : (span.toUInt64 / step.toUInt64).toNat =
        (stop.toInt.toNat - start.toInt.toNat) / step.toInt.toNat := by
      rw [UInt64.toNat_div, hlength, hwidth]
    have hexact : span.toUInt64 % step.toUInt64 = 0 ↔
        (stop.toInt.toNat - start.toInt.toNat) % step.toInt.toNat = 0 := by
      rw [← UInt64.toNat_inj, UInt64.toNat_mod, hlength, hwidth, UInt64.toNat_zero]
    rw [if_neg hnone, hspan, if_neg (by omega), ceil_div_eq (by omega)]
    simp only [Option.bind_eq_bind, Option.bind_some, hexact]
    split
    next => exact ⟨_, rfl, hsteps⟩
    next =>
      have hle := Nat.div_le_self (stop.toInt.toNat - start.toInt.toNat) step.toInt.toNat
      obtain ⟨count, hcount, hnext⟩ := exists_successor (span.toUInt64 / step.toUInt64) (by
        rw [hsteps]
        have hword : Int64.maxValue.toInt.toNat + 1 < UInt64.size := by decide
        omega)
      exact ⟨count, hcount, by rw [hnext, hsteps]⟩

/-- **A slice is measured without leaving the words**, on an axis that ends where positions end,
or before. -/
theorem measure?_eq (slice : Slice) (hlength : length.toNat ≤ Int64.maxValue.toInt.toNat) :
    ∃ start stop count, slice.measure? length = some (start, stop, count) ∧
      start.toInt = (slice.onAxis length).start ∧ stop.toInt = (slice.onAxis length).stop ∧
      count.toNat = (slice.onAxis length).count := by
  have hmin : Int64.minValue.toInt ≤ 0 := by decide
  have hmax : 0 ≤ Int64.maxValue.toInt := by decide
  obtain ⟨size, hsize, hvalue⟩ := exists_word length.toNat (by omega) (by omega)
  have hnonneg : 0 ≤ size.toInt := by omega
  have hnat : size.toInt.toNat = measurable length := by
    rw [measurable_eq hlength]
    omega
  obtain ⟨start, hstart, hstartValue⟩ := exists_bound hnonneg 0 slice.start
  obtain ⟨stop, hstop, hstopValue⟩ := exists_bound hnonneg size slice.stop
  rw [hnat] at hstartValue hstopValue
  have hstartExact : start.toInt = (slice.onAxis length).start := by
    rw [hstartValue, onAxis]
    cases slice.start <;> rfl
  have hstopExact : stop.toInt = (slice.onAxis length).stop := by
    rw [hstopValue, onAxis]
    cases slice.stop with
    | none => simp only [Option.elim_none]; omega
    | some bound => rfl
  obtain ⟨count, hcount, hcountValue⟩ := exists_count start stop slice.stepOrDefault (by omega)
    (by omega)
  refine ⟨start, stop, count, ?_, hstartExact, hstopExact, ?_⟩
  · simp only [measure?, hsize, Option.getD_some, hstart, hstop, Option.bind_eq_bind,
      Option.bind_some, hcount]
    rfl
  · rw [hcountValue, hstartExact, hstopExact, Int.toNat_natCast, Int.toNat_natCast]
    rfl

/-! ### As the host has it -/

/-- **A slice that moves forward is measured as the host measures it**, on an axis that ends
where positions end, or before. Both bounds are places on the axis. The positions that are
visited are those that the host selects, in ascending order, and the slice is empty where the
host selects none. All of it is computed without leaving the words. -/
theorem onAxis_as_host (slice : Slice) (length : UInt64)
    (hstep : 0 < slice.stepOrDefault.toInt)
    (hlength : length.toNat ≤ Int64.maxValue.toInt.toNat) :
    (slice.onAxis length).start ≤ length.toNat ∧ (slice.onAxis length).stop ≤ length.toNat ∧
    (slice.onAxis length).positions.Pairwise (· < ·) ∧
    (∀ position, position ∈ (slice.onAxis length).positions ↔
      slice.Selects length.toNat position) ∧
    (slice.onAxis length).positions.length = (slice.onAxis length).count ∧
    ((slice.onAxis length).isEmpty ↔ ∀ position, ¬ slice.Selects length.toNat position) ∧
    ∃ start stop count, slice.measure? length = some (start, stop, count) ∧
      start.toInt = (slice.onAxis length).start ∧ stop.toInt = (slice.onAxis length).stop ∧
      count.toNat = (slice.onAxis length).count :=
  ⟨Nat.le_trans (onAxis_start_le ..) (measurable_le _),
    Nat.le_trans (onAxis_stop_le ..) (measurable_le _),
    Stretch.pairwise_positions hstep, fun _ => mem_positions_onAxis hlength hstep,
    Stretch.length_positions _, isEmpty_onAxis_iff hlength hstep, measure?_eq slice hlength⟩

/-- From the lowest bound on in strides of `2 ^ 62`. -/
def strides : Slice := ⟨some Int64.minValue, none, some 4611686018427387904⟩

/-- The longest axis on which every element has a position. -/
def longestAxis : UInt64 := 9223372036854775807

/-- Two positions of the longest axis are selected by strides from the lowest bound. -/
theorem onAxis_as_host_strides :
    0 < strides.stepOrDefault.toInt ∧ longestAxis.toNat ≤ Int64.maxValue.toInt.toNat ∧
    (∀ position, position ∈ [0, 4611686018427387904] ↔
      strides.Selects longestAxis.toNat position) ∧
    ∃ start stop count, strides.measure? longestAxis = some (start, stop, count) ∧
      start.toInt = 0 ∧ stop.toInt = 9223372036854775807 ∧ count.toNat = 2 := by
  have hstep : 0 < strides.stepOrDefault.toInt := by decide
  have hlength : longestAxis.toNat ≤ Int64.maxValue.toInt.toNat := by decide
  obtain ⟨-, -, -, hpositions, -, -, hwords⟩ := onAxis_as_host strides longestAxis hstep hlength
  exact ⟨hstep, hlength, hpositions, hwords⟩

end Slice

end ChunkedArray
