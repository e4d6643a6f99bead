import ChunkedArray.Shape
import Mathlib.Data.List.Infix

/-!
# ChunkedArray.Proofs.Shape

Products of axis lengths that are taken from the left and have to stay below a bound.

A product that is given is the exact number of elements, and it is given just if no partial
product reaches the bound (`Shape.Reaches`). This is `countBelow_eq_some_iff` for any bound,
and `checkedCount_exact_iff` for machine words. Where no axis has length zero the last partial
product is the largest, so none of them reaches a bound that is above it (`not_reaches`).
-/

namespace ChunkedArray

namespace Shape

variable {shape : Shape} {bound count : Nat}

/-! ### Exact counts -/

theorem elementCount_append (shape other : Shape) :
    elementCount (shape ++ other) = elementCount shape * elementCount other := by
  induction shape with
  | nil => rw [List.nil_append, elementCount_nil, Nat.one_mul]
  | cons length shape ih =>
    rw [List.cons_append, elementCount_cons, elementCount_cons, ih, Nat.mul_assoc]

theorem elementCount_of_zero_mem (h : 0 ∈ shape) : shape.elementCount = 0 := by
  induction shape with
  | nil => simp at h
  | cons length shape ih =>
    rcases List.mem_cons.mp h with rfl | hrest
    · exact Nat.zero_mul _
    · rw [elementCount_cons, ih hrest, Nat.mul_zero]

theorem elementCount_pos_of_not_mem (h : 0 ∉ shape) : 0 < shape.elementCount := by
  induction shape with
  | nil => exact Nat.zero_lt_one
  | cons length shape ih =>
    rw [List.mem_cons, not_or] at h
    have hlength : 0 < length.toNat := Nat.pos_of_ne_zero fun hzero =>
      h.1 (UInt64.toNat_inj.mp hzero).symm
    exact Nat.mul_pos hlength (ih h.2)

/-- Axes in front of the first one of length zero are some of the axes of other lengths. -/
theorem elementCount_le_filter {front : Shape} (h : 0 ∉ front) (back : Shape) :
    front.elementCount ≤ elementCount ((front ++ back).filter (· ≠ 0)) := by
  have hkept : front.filter (· ≠ 0) = front := by
    rw [List.filter_eq_self]
    intro length hlength
    simpa using fun hnone : length = 0 => h (hnone ▸ hlength)
  have hbehind : 0 < elementCount (back.filter (· ≠ 0)) :=
    elementCount_pos_of_not_mem (by simp)
  rw [List.filter_append, hkept, elementCount_append]
  exact Nat.le_mul_of_pos_right _ hbehind

/-! ### Partial products -/

/-- One of the partial products, taken from the left, reaches the bound. -/
def Reaches (bound : Nat) (shape : Shape) : Prop :=
  ∃ front, front <+: shape ∧ bound ≤ elementCount front

instance (bound : Nat) (shape : Shape) : Decidable (shape.Reaches bound) :=
  decidable_of_iff (∃ front ∈ shape.inits, bound ≤ elementCount front)
    (by simp only [List.mem_inits, Reaches])

theorem not_reaches (hpos : 0 < shape.elementCount) (h : shape.elementCount < bound) :
    ¬ shape.Reaches bound := by
  intro hreaches
  obtain ⟨front, ⟨back, rfl⟩, hbound⟩ := hreaches
  rw [elementCount_append] at hpos h
  have hback : 0 < elementCount back := Nat.pos_of_mul_pos_left hpos
  exact absurd (Nat.le_mul_of_pos_right (elementCount front) hback) (by omega)

/-! ### Any bound -/

theorem mulBelow_eq_some_iff {a b : Nat} :
    mulBelow bound a b = some count ↔ a * b = count ∧ a * b < bound := by
  simp [mulBelow, and_comm]

theorem mulBelow_eq_none_iff {a b : Nat} : mulBelow bound a b = none ↔ bound ≤ a * b := by
  simp [mulBelow]

/-- The axes in front of some place of a shape are none, or the first one and those behind it. -/
theorem forall_prefix_cons {length : UInt64} {holds : Shape → Prop} :
    (∀ front, front <+: length :: shape → holds front) ↔
      holds [] ∧ ∀ front, front <+: shape → holds (length :: front) := by
  constructor
  · intro hall
    exact ⟨hall [] List.nil_prefix,
      fun front hfront => hall _ (List.cons_prefix_cons.mpr ⟨rfl, hfront⟩)⟩
  · intro hboth front hfront
    rcases List.prefix_cons_iff.mp hfront with rfl | ⟨rest, rfl, hrest⟩
    · exact hboth.1
    · exact hboth.2 rest hrest

/-- Counting on from a number below the bound. -/
theorem foldlM_mulBelow_eq_some_iff {first : Nat} (h : first < bound) :
    shape.foldlM (fun count length => mulBelow bound count length.toNat) first = some count ↔
      first * shape.elementCount = count ∧
        ∀ front, front <+: shape → first * elementCount front < bound := by
  induction shape generalizing first with
  | nil =>
    rw [elementCount_nil, Nat.mul_one]
    simp [h]
  | cons length shape ih =>
    rw [List.foldlM_cons, mulBelow, forall_prefix_cons]
    simp only [elementCount_nil, elementCount_cons, Nat.mul_one, ← Nat.mul_assoc, h, true_and]
    by_cases hproduct : first * length.toNat < bound
    · rw [if_pos hproduct, Option.bind_eq_bind, Option.bind_some, ih hproduct]
    · -- the first axis alone leads to the bound
      rw [if_neg hproduct]
      refine iff_of_false nofun fun hcount => hproduct ?_
      have hfirst := hcount.2 [] List.nil_prefix
      rwa [elementCount_nil, Nat.mul_one] at hfirst

/-- **A count below a bound is exact, and it is given unless a partial product reaches the
bound.** -/
theorem countBelow_eq_some_iff (h : 1 < bound) : countBelow bound shape = some count ↔
    shape.elementCount = count ∧ ¬ shape.Reaches bound := by
  rw [countBelow, foldlM_mulBelow_eq_some_iff h]
  simp only [Nat.one_mul, Reaches, not_exists, not_and, Nat.not_le]

theorem countBelow_eq_none_iff (h : 1 < bound) :
    countBelow bound shape = none ↔ shape.Reaches bound := by
  rw [Option.eq_none_iff_forall_ne_some]
  simp only [ne_eq, countBelow_eq_some_iff h]
  exact ⟨fun hnone => by_contra fun hfits => hnone _ ⟨rfl, hfits⟩,
    fun hreaches _ hcount => hcount.2 hreaches⟩

/-! ### Machine words -/

theorem checkedMul_eq_some_iff {a b product : UInt64} :
    checkedMul a b = some product ↔ product.toNat = a.toNat * b.toNat := by
  unfold checkedMul
  split
  next hlt =>
    have hexact : (a * b).toNat = a.toNat * b.toNat := by
      rw [UInt64.toNat_mul]
      exact Nat.mod_eq_of_lt hlt
    rw [Option.some.injEq, ← UInt64.toNat_inj, hexact, eq_comm]
  next hlt =>
    refine iff_of_false nofun fun hexact => hlt ?_
    rw [← hexact]
    exact product.toNat_lt

theorem checkedMul_eq_none_iff {a b : UInt64} :
    checkedMul a b = none ↔ UInt64.size ≤ a.toNat * b.toNat := by
  simp [checkedMul]

theorem map_foldlM_checkedMul (first : UInt64) (shape : Shape) :
    (shape.foldlM checkedMul first).map UInt64.toNat =
      shape.foldlM (fun count length => mulBelow UInt64.size count length.toNat) first.toNat := by
  induction shape generalizing first with
  | nil => rfl
  | cons length shape ih =>
    rw [List.foldlM_cons, List.foldlM_cons, mulBelow]
    cases hproduct : checkedMul first length with
    | none =>
      rw [if_neg (Nat.not_lt_of_le (checkedMul_eq_none_iff.mp hproduct))]
      rfl
    | some product =>
      have hexact := checkedMul_eq_some_iff.mp hproduct
      rw [if_pos (hexact ▸ product.toNat_lt), ← hexact]
      exact ih product

/-- A count in machine words is a count below their size. -/
theorem map_checkedCount (shape : Shape) :
    (checkedCount shape).map UInt64.toNat = countBelow UInt64.size shape :=
  map_foldlM_checkedMul 1 shape

/-- **A count in machine words is exact, and it is given unless a partial product leaves them.** -/
theorem checkedCount_exact_iff {count : UInt64} : checkedCount shape = some count ↔
    count.toNat = shape.elementCount ∧ ¬ shape.Reaches UInt64.size := by
  have hbelow : checkedCount shape = some count ↔
      countBelow UInt64.size shape = some count.toNat := by
    rw [← map_checkedCount, Option.map_eq_some_iff]
    simp only [UInt64.toNat_inj, exists_eq_right]
  rw [hbelow, countBelow_eq_some_iff (by decide), eq_comm]

/-- A count that fits a machine word is exact. -/
theorem toNat_of_checkedCount {count : UInt64} (h : checkedCount shape = some count) :
    count.toNat = elementCount shape := (checkedCount_exact_iff.mp h).1

/-- The number of elements of a shape is found if it is a machine word and not zero. -/
theorem checkedCount_eq_some (hpos : 0 < shape.elementCount)
    (h : shape.elementCount < UInt64.size) :
    checkedCount shape = some shape.elementCount.toUInt64 :=
  checkedCount_exact_iff.mpr ⟨UInt64.toNat_ofNat_of_lt' h, not_reaches hpos h⟩

end Shape

end ChunkedArray
