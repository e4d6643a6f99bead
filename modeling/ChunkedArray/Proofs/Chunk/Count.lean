import ChunkedArray.Proofs.Chunk.Fault

/-!
# ChunkedArray.Proofs.Chunk.Count

Counting elements axis by axis, as far as machine words go.

A count that is given is exact, and it is given unless a partial product leaves 64 bits. Without
an axis of length zero the last partial product is the largest, so only a count that is no machine
word is withheld. Where an axis has length zero the count is zero, and it is withheld if the axes
in front of the first such axis have more elements than a word counts (`Shape.OverflowsEarly`).
That depends on the order of the axes, unless all others together can be counted
(`Shape.FitsInAnyOrder`). The size of a buffer is counted in the same way.
-/

namespace ChunkedArray

namespace Shape

variable {shape other : Shape} {count : UInt64}

/-- The axes in front of the first one of length zero. -/
def beforeZero (shape : Shape) : Shape := shape.takeWhile (· ≠ 0)

/-- A partial product leaves 64 bits in front of an axis of length zero. -/
def OverflowsEarly (shape : Shape) : Prop :=
  0 ∈ shape ∧ UInt64.size ≤ shape.beforeZero.elementCount

/-- The axes of other lengths than zero have a number of elements that a word counts, if there is
an axis of length zero at all. -/
def FitsInAnyOrder (shape : Shape) : Prop :=
  0 ∈ shape → elementCount (shape.filter (· ≠ 0)) < UInt64.size

instance (shape : Shape) : Decidable shape.OverflowsEarly :=
  inferInstanceAs (Decidable (_ ∧ _))

/-! ### Exact counts -/

theorem elementCount_perm (h : other.Perm shape) : other.elementCount = shape.elementCount := by
  induction h with
  | nil => rfl
  | cons length _ ih => rw [elementCount_cons, elementCount_cons, ih]
  | swap first second rest =>
    simp only [elementCount_cons]
    exact Nat.mul_left_comm ..
  | trans _ _ ih ih' => exact ih.trans ih'

theorem beforeZero_append {front : Shape} (h : 0 ∉ front) (back : Shape) :
    beforeZero (front ++ 0 :: back) = front := by
  have hfront : ∀ length ∈ front, decide (length ≠ 0) = true := by
    intro length hlength
    simpa using fun hzero : length = 0 => h (hzero ▸ hlength)
  rw [beforeZero, List.takeWhile_append_of_pos hfront, List.takeWhile_cons_of_neg (by simp),
    List.append_nil]

/-- Without an axis of length zero, a count is withheld only if it is no machine word. -/
theorem checkedCount_eq_some_of_not_mem (h : 0 ∉ shape) :
    checkedCount shape = some count ↔ count.toNat = shape.elementCount := by
  refine ⟨toNat_of_checkedCount, fun hcount => ?_⟩
  have hlt : shape.elementCount < UInt64.size := hcount ▸ count.toNat_lt
  rw [checkedCount_eq_some (elementCount_pos_of_not_mem h) hlt, ← hcount, toUInt64_toNat]

theorem foldlM_checkedMul_zero (shape : Shape) : shape.foldlM checkedMul 0 = some 0 := by
  induction shape with
  | nil => rfl
  | cons length shape ih =>
    have hproduct : checkedMul 0 length = some 0 := by simp [checkedMul, UInt64.size]
    rw [List.foldlM_cons, hproduct]
    exact ih

/-- Behind an axis of length zero nothing is counted any more. -/
theorem checkedCount_append_zero (front back : Shape) :
    checkedCount (front ++ 0 :: back) = (checkedCount front).map fun _ => 0 := by
  rw [checkedCount, List.foldlM_append, ← checkedCount]
  cases checkedCount front with
  | none => rfl
  | some first =>
    have hproduct : checkedMul first 0 = some 0 := by simp [checkedMul, UInt64.size]
    show List.foldlM checkedMul first (0 :: back) = some 0
    rw [List.foldlM_cons, hproduct]
    exact foldlM_checkedMul_zero back

/-- **A count is exact, and it is given unless a partial product overflows early.** -/
theorem checkedCount_eq_some_iff : checkedCount shape = some count ↔
    count.toNat = shape.elementCount ∧ ¬ shape.OverflowsEarly := by
  by_cases hzero : 0 ∈ shape
  · obtain ⟨front, back, rfl, hfront⟩ := List.eq_append_cons_of_mem hzero
    have hearly : ¬ OverflowsEarly (front ++ 0 :: back) ↔ elementCount front < UInt64.size := by
      rw [OverflowsEarly, beforeZero_append hfront, not_and, Nat.not_le]
      exact ⟨fun h => h hzero, fun h _ => h⟩
    have hgiven : (∃ first, checkedCount front = some first) ↔
        elementCount front < UInt64.size := by
      simp only [checkedCount_eq_some_of_not_mem hfront]
      exact ⟨fun ⟨first, hfirst⟩ => hfirst ▸ first.toNat_lt,
        fun hlt => ⟨_, toNat_toUInt64 hlt⟩⟩
    rw [checkedCount_append_zero, elementCount_of_zero_mem hzero, hearly, ← hgiven,
      Option.map_eq_some_iff, ← UInt64.toNat_zero, UInt64.toNat_inj]
    exact ⟨fun ⟨first, hfirst, hcount⟩ => ⟨hcount.symm, first, hfirst⟩,
      fun ⟨hcount, first, hfirst⟩ => ⟨first, hfirst, hcount.symm⟩⟩
  · rw [checkedCount_eq_some_of_not_mem hzero]
    exact ⟨fun hcount => ⟨hcount, fun hearly => hzero hearly.1⟩, And.left⟩

/-! ### The order of the axes -/

theorem FitsInAnyOrder.of_perm (h : shape.FitsInAnyOrder) (hperm : other.Perm shape) :
    other.FitsInAnyOrder := by
  intro hzero
  rw [elementCount_perm (hperm.filter _)]
  exact h (hperm.mem_iff.mp hzero)

theorem FitsInAnyOrder.not_overflowsEarly (h : shape.FitsInAnyOrder) : ¬ shape.OverflowsEarly := by
  intro hearly
  obtain ⟨hzero, hlarge⟩ := hearly
  obtain ⟨front, back, rfl, hfront⟩ := List.eq_append_cons_of_mem hzero
  rw [beforeZero_append hfront] at hlarge
  exact Nat.not_lt_of_le (Nat.le_trans hlarge (elementCount_le_filter hfront (0 :: back))) (h hzero)

/-- Unless all axes fit in any order, there is an order in which they overflow, and one in which
they do not: with the axes of length zero behind all others, and with one of them in front. -/
theorem exists_orders (h : ¬ shape.FitsInAnyOrder) : 0 ∈ shape ∧
    (∃ early : Shape, early.Perm shape ∧ early.OverflowsEarly) ∧
    ∃ late : Shape, late.Perm shape ∧ ¬ late.OverflowsEarly := by
  rw [FitsInAnyOrder, Classical.not_imp, Nat.not_lt] at h
  obtain ⟨hzero, hlarge⟩ := h
  have herase : shape.Perm (0 :: shape.erase 0) := List.perm_cons_erase hzero
  refine ⟨hzero, ⟨(shape.erase 0).filter (· ≠ 0) ++
    0 :: (shape.erase 0).filter fun length => !decide (length ≠ 0), ?_, ?_⟩,
    0 :: shape.erase 0, herase.symm, ?_⟩
  · refine List.perm_middle.trans (List.Perm.trans ?_ herase.symm)
    exact (List.filter_append_perm _ _).cons 0
  · have hcount := elementCount_perm (herase.filter (· ≠ 0))
    rw [List.filter_cons_of_neg (by simp)] at hcount
    refine ⟨by simp, ?_⟩
    rwa [beforeZero_append (by simp), ← hcount]
  · intro hearly
    have hnone : UInt64.size ≤ elementCount (beforeZero ([] ++ 0 :: shape.erase 0)) := hearly.2
    rw [beforeZero_append List.not_mem_nil] at hnone
    exact absurd hnone (by decide)

/-- **The order of the axes does not matter to a count just if all of them fit in any order.** -/
theorem checkedCount_perm_iff :
    (∀ other : Shape, other.Perm shape → checkedCount other = checkedCount shape) ↔
      shape.FitsInAnyOrder := by
  constructor
  · intro hsame
    by_contra hfits
    obtain ⟨hzero, ⟨early, hearlyPerm, hearly⟩, late, hlatePerm, hlate⟩ := exists_orders hfits
    have hcount : checkedCount late = some 0 := by
      refine checkedCount_eq_some_iff.mpr ⟨?_, hlate⟩
      rw [elementCount_perm hlatePerm, elementCount_of_zero_mem hzero, UInt64.toNat_zero]
    rw [hsame late hlatePerm, ← hsame early hearlyPerm] at hcount
    exact (checkedCount_eq_some_iff.mp hcount).2 hearly
  · intro hfits other hperm
    refine Option.ext fun count => ?_
    rw [checkedCount_eq_some_iff, checkedCount_eq_some_iff, elementCount_perm hperm]
    exact and_congr_right fun _ =>
      iff_of_true (hfits.of_perm hperm).not_overflowsEarly hfits.not_overflowsEarly

end Shape

/-! ### Buffers -/

variable {size width : Nat} {shape other : Shape}

/-- **The size of a buffer is held against the exact size of its shape**, unless counting this one
overflows early. -/
theorem checkBuffer_eq_ok_iff (hsize : size < UInt64.size) (hwidth : width < UInt64.size) :
    checkBuffer size shape width = .ok () ↔
      size = shape.elementCount * width ∧ ¬ Shape.OverflowsEarly (shape ++ [width.toUInt64]) := by
  have hexact : Shape.elementCount (shape ++ [width.toUInt64]) = shape.elementCount * width := by
    rw [Shape.elementCount_append, Shape.elementCount_cons, Shape.elementCount_nil, Nat.mul_one,
      toNat_toUInt64 hwidth]
  have haccepted : checkBuffer size shape width = .ok () ↔
      (Shape.checkedCount (shape ++ [width.toUInt64])).map UInt64.toNat = some size := by
    simp only [checkBuffer]
    split
    next hcount => simp [hcount]
    next hcount => simp [hcount]
  rw [haccepted, Option.map_eq_some_iff]
  simp only [Shape.checkedCount_eq_some_iff, hexact]
  constructor
  · intro h
    obtain ⟨count, ⟨hcount, hearly⟩, rfl⟩ := h
    exact ⟨hcount, hearly⟩
  · intro h
    obtain ⟨rfl, hearly⟩ := h
    exact ⟨_, ⟨toNat_toUInt64 hsize, hearly⟩, toNat_toUInt64 hsize⟩

/-- The size of an element comes last: it is counted behind all axes. -/
theorem Shape.overflowsEarly_concat {word : UInt64} : OverflowsEarly (shape ++ [word]) ↔
    shape.OverflowsEarly ∨ 0 ∉ shape ∧ word = 0 ∧ UInt64.size ≤ shape.elementCount := by
  by_cases hzero : 0 ∈ shape
  · obtain ⟨front, back, rfl, hfront⟩ := List.eq_append_cons_of_mem hzero
    rw [OverflowsEarly, OverflowsEarly, List.append_assoc, List.cons_append,
      beforeZero_append hfront, beforeZero_append hfront]
    simp
  · have hnone : ¬ shape.OverflowsEarly := fun hearly => hzero hearly.1
    by_cases hword : word = 0
    · rw [hword, OverflowsEarly, beforeZero_append hzero]
      simp [hzero, hnone]
    · have hall : ¬ OverflowsEarly (shape ++ [word]) := by
        intro hearly
        rcases List.mem_append.mp hearly.1 with hmem | hmem
        · exact hzero hmem
        · exact hword (List.mem_singleton.mp hmem).symm
      simp [hall, hnone, hword]

/-- **The order of the axes does not matter to a buffer just if the buffer has bytes, or if all axes
fit in any order.** -/
theorem checkBuffer_perm_iff (hsize : size < UInt64.size) (hwidth : width < UInt64.size) :
    (∀ other : Shape, other.Perm shape →
      (checkBuffer size other width = .ok () ↔ checkBuffer size shape width = .ok ())) ↔
      (size = 0 → shape.FitsInAnyOrder) := by
  simp only [checkBuffer_eq_ok_iff hsize hwidth, Shape.overflowsEarly_concat]
  constructor
  · intro hsame hempty
    by_contra hfits
    obtain ⟨hzero, ⟨early, hearlyPerm, hearly⟩, late, hlatePerm, hlate⟩ :=
      Shape.exists_orders hfits
    have hcount : late.elementCount = 0 := by
      rw [Shape.elementCount_perm hlatePerm, Shape.elementCount_of_zero_mem hzero]
    have hlateOk := (hsame late hlatePerm).mp ⟨by rw [hcount, hempty, Nat.zero_mul],
      fun hover => hover.elim hlate fun hother => hother.1 (hlatePerm.mem_iff.mpr hzero)⟩
    exact ((hsame early hearlyPerm).mpr hlateOk).2 (Or.inl hearly)
  · intro hfits other hperm
    rw [Shape.elementCount_perm hperm, hperm.mem_iff]
    refine and_congr_right fun hexact => ?_
    -- a shape of a buffer that has bytes has no axis of length zero
    have hnone : ∀ order : Shape, order.Perm shape → ¬ order.OverflowsEarly := by
      intro order horder hearly
      by_cases hempty : size = 0
      · exact ((hfits hempty).of_perm horder).not_overflowsEarly hearly
      · rw [← Shape.elementCount_perm horder, Shape.elementCount_of_zero_mem hearly.1,
          Nat.zero_mul] at hexact
        exact hempty hexact
    simp only [hnone other hperm, hnone shape (List.Perm.refl _)]

/-! ### Planning -/

/-- The error says that a buffer has another size than its shape. -/
def AccessError.IsBufferSize : AccessError → Prop
  | .bufferSize .. => True
  | _ => False

theorem Box.ofSlices_ne_bufferSize {slices : List Slice} {error : AccessError}
    (h : Box.ofSlices slices shape = .error error) : ¬ error.IsBufferSize := by
  have hfault := Outcome.error?_eq_some.mpr h
  rw [Box.error?_ofSlices, slicesFault?] at hfault
  split at hfault
  · obtain rfl := Option.some.inj hfault
    exact id
  · obtain ⟨axis, -, hstep⟩ := List.exists_of_findSome?_eq_some hfault
    split at hstep
    · cases hstep
    · obtain rfl := Option.some.inj hstep
      exact id

theorem Chunk.checkedLength_ne_bufferSize {chunk : Chunk} {limit : UInt64} {error : AccessError}
    (h : chunk.checkedLength limit = .error error) : ¬ error.IsBufferSize := by
  rcases Chunk.checkedLength_eq_error_iff.mp h with ⟨-, rfl⟩ | ⟨-, -, rfl⟩ | ⟨-, -, -, rfl⟩
  · exact id
  · exact id
  · exact id

/-- Planning an entry refuses the buffer just if its check does, once the chunk has passed the
limit. -/
theorem BatchEntry.plan_refuses_iff {entry : BatchEntry} {limit : UInt64} :
    (∃ error, entry.plan size shape limit = .error error ∧ error.IsBufferSize) ↔
      (∃ count, entry.chunk.checkedLength limit = .ok count) ∧
        checkBuffer size shape entry.chunk.elementSize ≠ .ok () := by
  constructor
  · intro h
    obtain ⟨error, herror, hkind⟩ := h
    simp only [plan, Outcome.bind_eq_error] at herror
    rcases herror with hlength | ⟨count, hcount, hbuffer | ⟨_, -, hchunk | ⟨_, -, hout | ⟨_, -, h⟩⟩⟩⟩
    · exact absurd hkind (Chunk.checkedLength_ne_bufferSize hlength)
    · refine ⟨⟨count, hcount⟩, fun hok => ?_⟩
      rw [hbuffer] at hok
      cases hok
    · exact absurd hkind (Box.ofSlices_ne_bufferSize hchunk)
    · exact absurd hkind (Box.ofSlices_ne_bufferSize hout)
    · split at h
      · cases h
      · obtain rfl := Except.error.inj h
        exact hkind.elim
  · intro h
    obtain ⟨⟨count, hcount⟩, hbuffer⟩ := h
    simp only [plan, hcount, Outcome.ok_bind]
    simp only [checkBuffer] at hbuffer ⊢
    split at hbuffer
    next => exact absurd rfl hbuffer
    next hsize =>
      rw [if_neg hsize]
      exact ⟨_, rfl, True.intro⟩

/-! ### Counting -/

/-- **Elements and bytes are counted exactly, unless the axes in front of one of length zero have
more elements than a machine word counts.** A chunk has a number of elements, a buffer passes its
check and planning accepts it just where the exact product is the number; the only exception are
shapes that overflow early. The order of the axes matters to no shape but these. -/
theorem counted_exactly_unless_early (chunk : Chunk) (size width : Nat) (shape : Shape)
    (hsize : size < UInt64.size) (hwidth : width < UInt64.size) :
    (∀ count, chunk.elementCount? = some count ↔
      count.toNat = chunk.shape.elementCount ∧ ¬ chunk.shape.OverflowsEarly) ∧
    (checkBuffer size shape width = .ok () ↔
      size = shape.elementCount * width ∧ ¬ Shape.OverflowsEarly (shape ++ [width.toUInt64])) ∧
    (∀ (entry : BatchEntry) (limit : UInt64), entry.chunk.elementSize = width →
      ((∃ error, entry.plan size shape limit = .error error ∧ error.IsBufferSize) ↔
        (∃ count, entry.chunk.checkedLength limit = .ok count) ∧
          ¬ (size = shape.elementCount * width ∧ ¬ shape.OverflowsEarly))) ∧
    ((∀ other : Chunk, other.shape.Perm chunk.shape →
      other.elementCount? = chunk.elementCount?) ↔ chunk.shape.FitsInAnyOrder) ∧
    ((∀ other : Shape, other.Perm shape →
      (checkBuffer size other width = .ok () ↔ checkBuffer size shape width = .ok ())) ↔
      (size = 0 → shape.FitsInAnyOrder)) := by
  refine ⟨fun _ => Shape.checkedCount_eq_some_iff, checkBuffer_eq_ok_iff hsize hwidth, ?_, ?_,
    checkBuffer_perm_iff hsize hwidth⟩
  · intro entry limit hentry
    rw [BatchEntry.plan_refuses_iff, hentry]
    refine and_congr_right fun hpassed => not_congr ?_
    -- a chunk that passes the limit has elements of at least one byte
    obtain ⟨count, hcount⟩ := hpassed
    have hpos := (Chunk.checkedLength_eq_ok hcount).1
    have hword : width.toUInt64 ≠ 0 := by
      rw [ne_eq, ← UInt64.toNat_inj, toNat_toUInt64 hwidth, ← hentry]
      exact Nat.ne_of_gt hpos
    rw [checkBuffer_eq_ok_iff hsize hwidth, Shape.overflowsEarly_concat]
    simp [hword]
  · rw [← Shape.checkedCount_perm_iff]
    exact ⟨fun h other hperm => h { chunk with shape := other } hperm,
      fun h other hperm => h other.shape hperm⟩

/-- A chunk without elements. Its axes are counted in any order. -/
def drainedChunk : Chunk := ⟨"c", [0, 4294967296, 2147483648], "uint8", [0]⟩

/-- A number of elements at the edge of a machine word that planning holds against a buffer, a
chunk without elements, and an empty buffer whose axes are taken in another order. -/
theorem counted_exactly_unless_early_edge :
    drainedChunk.elementCount? = some 0 ∧
      Chunk.elementCount? ⟨"d", [4294967296, 0, 2147483648], "uint8", [0]⟩ = some 0 ∧
      (∃ error, BatchEntry.plan ⟨⟨"a", [2, 2], "uint8", [0]⟩, [], []⟩ 0 [4294967295, 4294967297] 50 =
        .error error ∧ error.IsBufferSize) ∧
      (checkBuffer 0 [4294967296, 0, 2147483648] 1 = .ok () ↔
        checkBuffer 0 [0, 4294967296, 2147483648] 1 = .ok ()) := by
  have hfits : Shape.FitsInAnyOrder [0, 4294967296, 2147483648] := fun _ => by decide
  have hswap : List.Perm [4294967296, 0, 2147483648] ([0, 4294967296, 2147483648] : Shape) :=
    List.Perm.swap ..
  obtain ⟨hcount, -, -, horder, hbufferOrder⟩ := counted_exactly_unless_early drainedChunk 0 1
    [0, 4294967296, 2147483648] (by decide) (by decide)
  obtain ⟨-, -, hplan, -, -⟩ := counted_exactly_unless_early drainedChunk 0 1
    [4294967295, 4294967297] (by decide) (by decide)
  have hdrained := (hcount 0).mpr ⟨by decide, by decide⟩
  refine ⟨hdrained, ?_, (hplan _ _ rfl).mpr ⟨⟨4, rfl⟩, by decide⟩,
    hbufferOrder.mpr (fun _ => hfits) _ hswap⟩
  rw [horder.mpr hfits _ hswap]
  exact hdrained

/-- A chunk without elements whose first two axes have `2 ^ 65` positions has no number of
elements. -/
theorem not_counted_exactly :
    ¬ ∀ (chunk : Chunk) (count : UInt64), chunk.elementCount? = some count ↔
      count.toNat = chunk.shape.elementCount := by
  intro hexact
  have hnone : Chunk.elementCount? ⟨"c", [9223372036854775808, 4, 0], "uint8", [0]⟩ = none := by
    decide
  have hzero := (hexact ⟨"c", [9223372036854775808, 4, 0], "uint8", [0]⟩ 0).mpr (by decide)
  cases hnone.symm.trans hzero

end ChunkedArray
