import ChunkedArray.Codec.ByteOrder
import ChunkedArray.Region.Runs
import Mathlib.Data.Nat.Basic

/-!
# ChunkedArray.Proofs.Codec.ByteOrder

Parts of elements in a byte order.

The bytes of numbers are reversed number by number (`reverseNumbers_append`). So it makes no
difference whether they are reversed before some parts are cut out or afterwards, as long as
no part begins or ends inside a number. The runs of a box are such parts, even where their
offsets and lengths wrap around (`aligned_of_mem_byteRanges`), and the elements of a box can
be brought into a byte order alone (`arrange_byteRanges`).
-/

namespace ChunkedArray

namespace Bytes

variable {size : Nat} {bytes : Bytes}

theorem reverseFirst_append {first : Bytes} {count : Nat} (h : first.length = count * size)
    (more : Nat) (second : Bytes) : reverseFirst size (count + more) (first ++ second) =
      reverseFirst size count first ++ reverseFirst size more second := by
  induction count generalizing first with
  | zero =>
    rw [Nat.zero_mul] at h
    rw [List.length_eq_zero_iff.mp h, Nat.zero_add]
    rfl
  | succ count ih =>
    rw [Nat.succ_mul] at h
    have hsize : size ≤ first.length := by omega
    have hrest : (first.drop size).length = count * size := by
      rw [List.length_drop]
      omega
    rw [Nat.succ_add, reverseFirst, reverseFirst, List.take_append_of_le_length hsize,
      List.drop_append_of_le_length hsize, ih hrest, List.append_assoc]

theorem reverseNumbers_append {first : Bytes} (h : size ∣ first.length) (second : Bytes) :
    reverseNumbers size (first ++ second) =
      reverseNumbers size first ++ reverseNumbers size second := by
  obtain ⟨count, hcount⟩ := h
  rcases Nat.eq_zero_or_pos size with rfl | hpos
  · rw [Nat.zero_mul] at hcount
    rw [List.length_eq_zero_iff.mp hcount]
    rfl
  · have hfirst : first.length / size = count := by rw [hcount, Nat.mul_div_cancel_left _ hpos]
    rw [reverseNumbers, List.length_append, hcount, Nat.mul_add_div hpos,
      reverseFirst_append (by rw [hcount, Nat.mul_comm]), reverseNumbers, hfirst, reverseNumbers]

theorem reverseNumbers_flatten {parts : List Bytes} (h : ∀ part ∈ parts, size ∣ part.length) :
    reverseNumbers size parts.flatten = (parts.map (reverseNumbers size)).flatten := by
  induction parts with
  | nil => simp [reverseNumbers, reverseFirst]
  | cons part parts ih =>
    rw [List.flatten_cons, reverseNumbers_append (h part (by simp)), List.map_cons,
      List.flatten_cons, ih fun other hother => h other (by simp [hother])]

section Cut

variable {count : Nat} (haligned : size ∣ count) (hle : count ≤ bytes.length)

include haligned hle

theorem reverseNumbers_split : reverseNumbers size bytes =
    reverseNumbers size (bytes.take count) ++ reverseNumbers size (bytes.drop count) := by
  have hfirst : size ∣ (bytes.take count).length := by
    rwa [List.length_take, Nat.min_eq_left hle]
  rw [← reverseNumbers_append hfirst, List.take_append_drop]

theorem take_reverseNumbers :
    (reverseNumbers size bytes).take count = reverseNumbers size (bytes.take count) := by
  rw [reverseNumbers_split haligned hle]
  exact List.take_left' (by rw [length_reverseNumbers, List.length_take, Nat.min_eq_left hle])

theorem drop_reverseNumbers :
    (reverseNumbers size bytes).drop count = reverseNumbers size (bytes.drop count) := by
  rw [reverseNumbers_split haligned hle]
  exact List.drop_left' (by rw [length_reverseNumbers, List.length_take, Nat.min_eq_left hle])

end Cut

end Bytes

/-! ### Aligned ranges -/

/-- The range neither begins nor ends inside a number. -/
def ByteRange.Aligned (size : Nat) : ByteRange → Prop
  | fromStart offset (some length) => size ∣ offset.toNat ∧ size ∣ length.toNat
  | _ => False

theorem ByteRange.slice_reverseNumbers {size : Nat} {range : ByteRange} (h : range.Aligned size)
    {bytes : Bytes} (hwithin : range.within bytes.length) :
    size ∣ (range.slice bytes).length ∧
      range.slice (bytes.reverseNumbers size) = (range.slice bytes).reverseNumbers size := by
  match range with
  | fromStart offset (some length) =>
    obtain ⟨hoffset, hlength⟩ := h
    simp only [within, Option.getD_some, decide_eq_true_eq] at hwithin
    have hle : length.toNat ≤ (bytes.drop offset.toNat).length := by
      rw [List.length_drop]
      omega
    refine ⟨?_, ?_⟩
    · rwa [slice, List.length_take, Nat.min_eq_left hle]
    · rw [slice, Bytes.drop_reverseNumbers hoffset (by omega),
        Bytes.take_reverseNumbers hlength hle, slice]
  | fromStart _ none | suffix _ => exact h.elim

namespace ElementType

variable {type : ElementType} {size : Nat}

/-- An element is made of whole numbers. -/
theorem numberSize_dvd_size (h : type.size? = some size) : type.numberSize ∣ size := by
  cases type with
  | raw bytes => exact Nat.one_dvd _
  | string | binary => cases h
  | _ =>
    obtain rfl := Option.some.inj h
    decide

theorem numberSize_dvd_word (type : ElementType) : type.numberSize ∣ UInt64.size := by
  cases type with
  | raw bytes => exact Nat.one_dvd _
  | _ => decide

/-- Counted in machine words, the size of some elements still is a size of whole numbers. -/
theorem numberSize_dvd_toUInt64 (h : type.size? = some size) (count : Nat) :
    type.numberSize ∣ (count * size).toUInt64.toNat := by
  rw [Nat.toUInt64_eq, UInt64.toNat_ofNat', Nat.dvd_mod_iff type.numberSize_dvd_word]
  exact Nat.dvd_mul_left_of_dvd (numberSize_dvd_size h) count

end ElementType

/-! ### Boxes -/

variable {type : ElementType} {size : Nat} {box : Box} {shape : Shape} {bytes : Bytes}

theorem Box.aligned_of_mem_byteRanges (h : type.size? = some size) {range : ByteRange}
    (hmem : range ∈ box.byteRanges shape size) : range.Aligned type.numberSize := by
  obtain ⟨start, -, rfl⟩ := List.mem_map.mp hmem
  exact ⟨ElementType.numberSize_dvd_toUInt64 h _, ElementType.numberSize_dvd_toUInt64 h _⟩

/-- **The elements of a box in a byte order** are what is cut from all elements in that
order. -/
theorem ByteOrder.arrange_byteRanges (order : ByteOrder) (h : type.size? = some size)
    (hwithin : ∀ range ∈ box.byteRanges shape size, range.within bytes.length) :
    order.arrange type ((box.byteRanges shape size).map (ByteRange.slice bytes)).flatten =
      ((box.byteRanges shape size).map (ByteRange.slice (order.arrange type bytes))).flatten := by
  cases order with
  | little => rfl
  | big =>
    have hslice : ∀ range ∈ box.byteRanges shape size, _ := fun range hrange =>
      ByteRange.slice_reverseNumbers (Box.aligned_of_mem_byteRanges h hrange)
        (hwithin range hrange)
    have hparts : ∀ part ∈ (box.byteRanges shape size).map (ByteRange.slice bytes),
        type.numberSize ∣ part.length := by
      intro part hpart
      obtain ⟨range, hrange, rfl⟩ := List.mem_map.mp hpart
      exact (hslice range hrange).1
    rw [arrange, Bytes.reverseNumbers_flatten hparts, List.map_map]
    congr 1
    refine List.map_congr_left ?_
    intro range hrange
    exact (hslice range hrange).2.symm

end ChunkedArray
