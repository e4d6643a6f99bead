import ChunkedArray.Chunk.Size
import ChunkedArray.Proofs.Outcome
import ChunkedArray.Proofs.Shape

/-!
# ChunkedArray.Proofs.Chunk.Size

The counts and sizes of a chunk are exact where they are given, and where they are not given a
product has left its bits: 64 of them (`counted_eq_ok`, `sizeOf_eq_ok`), or 128 for the number
that is held against the limit. With that the limit has three ways to refuse a chunk, and lets
it pass with its exact number of elements only (`checkedLength_eq_error_iff`,
`checkedLength_eq_ok_iff`).
-/

namespace ChunkedArray

namespace Chunk

variable {chunk : Chunk} {limit : UInt64} {count size : Nat} {error : AccessError}

/-! ### Products -/

theorem counted_eq_ok : chunk.counted = .ok count ↔
    chunk.shape.elementCount = count ∧ ¬ chunk.shape.Reaches UInt64.size := by
  rw [counted, Outcome.ofProduct_eq_ok, Shape.countBelow_eq_some_iff (by decide)]

theorem sizeOf_eq_ok : chunk.sizeOf count = .ok size ↔
    count * chunk.elementSize = size ∧ count * chunk.elementSize < UInt64.size := by
  rw [sizeOf, Outcome.ofProduct_eq_ok, Shape.mulBelow_eq_some_iff]

theorem sizeOf_eq_error : chunk.sizeOf count = .error error ↔
    UInt64.size ≤ count * chunk.elementSize ∧ error = .overflow := by
  rw [sizeOf, Outcome.ofProduct_eq_error, Shape.mulBelow_eq_none_iff]

theorem guardedCount_eq_ok : chunk.guardedCount = .ok count ↔
    chunk.shape.elementCount = count ∧ ¬ chunk.shape.Reaches (UInt64.size * UInt64.size) := by
  rw [guardedCount, Outcome.ofProduct_eq_ok, Shape.countBelow_eq_some_iff (by decide)]

theorem guardedCount_eq_error : chunk.guardedCount = .error error ↔
    chunk.shape.Reaches (UInt64.size * UInt64.size) ∧ error = .overflow := by
  rw [guardedCount, Outcome.ofProduct_eq_error, Shape.countBelow_eq_none_iff (by decide)]

/-! ### The limit -/

/-- **What passes the limit is the exact number of elements**, and no partial product leaves
128 bits. -/
theorem checkedLength_eq_ok_iff : chunk.checkedLength limit = .ok count ↔
    0 < chunk.elementSize ∧ ¬ chunk.shape.Reaches (UInt64.size * UInt64.size) ∧
      chunk.shape.elementCount = count ∧ count ≤ limit.toNat := by
  unfold checkedLength
  split
  next hsize => exact iff_of_false nofun fun h => Nat.ne_of_gt h.1 hsize
  next hsize =>
    simp only [Outcome.bind_eq_ok, guardedCount_eq_ok]
    constructor
    · intro h
      obtain ⟨found, ⟨hexact, hfits⟩, hlimit⟩ := h
      split at hlimit
      next => cases hlimit
      next hle =>
        obtain rfl := Except.ok.inj hlimit
        exact ⟨Nat.pos_of_ne_zero hsize, hfits, hexact, Nat.le_of_not_lt hle⟩
    · intro h
      obtain ⟨-, hfits, hexact, hle⟩ := h
      exact ⟨count, ⟨hexact, hfits⟩, if_neg (Nat.not_lt_of_le hle)⟩

/-- **Why a chunk does not pass the limit**: its elements have no size, a partial product leaves
128 bits, or there are too many elements. -/
theorem checkedLength_eq_error_iff : chunk.checkedLength limit = .error error ↔
    chunk.elementSize = 0 ∧ error = .invalidChunk chunk.key .emptyFill ∨
    0 < chunk.elementSize ∧ chunk.shape.Reaches (UInt64.size * UInt64.size) ∧ error = .overflow ∨
    0 < chunk.elementSize ∧ ¬ chunk.shape.Reaches (UInt64.size * UInt64.size) ∧
      limit.toNat < chunk.shape.elementCount ∧
      error = .chunkTooLarge chunk.shape.elementCount limit := by
  unfold checkedLength
  split
  next hsize => simp [hsize, eq_comm]
  next hsize =>
    simp only [Outcome.bind_eq_error, guardedCount_eq_ok, guardedCount_eq_error, hsize, false_and,
      false_or, Nat.pos_of_ne_zero hsize, true_and]
    refine or_congr_right ?_
    constructor
    · intro h
      obtain ⟨count, ⟨rfl, hfits⟩, hlimit⟩ := h
      split at hlimit
      next hlarge => exact ⟨hfits, hlarge, (Except.error.inj hlimit).symm⟩
      next => cases hlimit
    · intro h
      obtain ⟨hfits, hlarge, rfl⟩ := h
      exact ⟨_, ⟨rfl, hfits⟩, if_pos hlarge⟩

theorem checkedLength_eq_ok (h : chunk.checkedLength limit = .ok count) :
    0 < chunk.elementSize ∧ chunk.shape.elementCount ≤ limit.toNat ∧
      chunk.shape.elementCount = count := by
  obtain ⟨hsize, -, rfl, hlimit⟩ := checkedLength_eq_ok_iff.mp h
  exact ⟨hsize, hlimit, rfl⟩

end Chunk

end ChunkedArray
