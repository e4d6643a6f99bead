import ChunkedArray.Bytes
import ChunkedArray.ElementType

/-!
# ChunkedArray.Codec.ByteOrder

The order of the bytes of a number. Elements are held with the low byte first;
storing them with the high byte first reverses the bytes of each of their
numbers. Doing it twice gives the elements back (`reverseNumbers_reverseNumbers`).
-/

namespace ChunkedArray

/-- Which byte of a number is stored first. -/
inductive ByteOrder
  /-- The low byte. -/
  | little
  /-- The high byte. -/
  | big
  deriving DecidableEq, Repr

namespace Bytes

/-- The bytes with each of the first `count` numbers of `size` bytes reversed. -/
def reverseFirst (size : Nat) : Nat → Bytes → Bytes
  | 0, bytes => bytes
  | count + 1, bytes => (bytes.take size).reverse ++ reverseFirst size count (bytes.drop size)

/-- The bytes with each number of `size` bytes reversed; a shorter rest at the
end stays as it is. -/
def reverseNumbers (size : Nat) (bytes : Bytes) : Bytes :=
  reverseFirst size (bytes.length / size) bytes

theorem length_reverseFirst (size count : Nat) (bytes : Bytes) :
    (reverseFirst size count bytes).length = bytes.length := by
  induction count generalizing bytes with
  | zero => rfl
  | succ count ih => simp [reverseFirst, ih]; omega

@[simp] theorem length_reverseNumbers (size : Nat) (bytes : Bytes) :
    (reverseNumbers size bytes).length = bytes.length :=
  length_reverseFirst ..

theorem reverseFirst_reverseFirst {size count : Nat} {bytes : Bytes}
    (h : count * size ≤ bytes.length) :
    reverseFirst size count (reverseFirst size count bytes) = bytes := by
  induction count generalizing bytes with
  | zero => rfl
  | succ count ih =>
    have hsize : size ≤ bytes.length := Nat.le_trans (Nat.le_mul_of_pos_left _ (by omega)) h
    have hlength : (bytes.take size).reverse.length = size := by simp [hsize]
    have hrest : count * size ≤ (bytes.drop size).length := by
      rw [Nat.succ_mul] at h
      simp only [List.length_drop]
      omega
    simp only [reverseFirst]
    rw [List.take_left' hlength, List.drop_left' hlength, List.reverse_reverse, ih hrest,
      List.take_append_drop]

theorem reverseNumbers_reverseNumbers (size : Nat) (bytes : Bytes) :
    reverseNumbers size (reverseNumbers size bytes) = bytes := by
  simp only [reverseNumbers, length_reverseFirst]
  exact reverseFirst_reverseFirst (Nat.div_mul_le_self ..)

end Bytes

/-- Elements with the low byte first, brought into a byte order; also the other
way round. -/
def ByteOrder.arrange (order : ByteOrder) (type : ElementType) (bytes : Bytes) : Bytes :=
  match order with
  | little => bytes
  | big => bytes.reverseNumbers type.numberSize

theorem ByteOrder.arrange_arrange (order : ByteOrder) (type : ElementType) (bytes : Bytes) :
    order.arrange type (order.arrange type bytes) = bytes := by
  cases order with
  | little => rfl
  | big => exact Bytes.reverseNumbers_reverseNumbers ..

@[simp] theorem ByteOrder.length_arrange (order : ByteOrder) (type : ElementType)
    (bytes : Bytes) : (order.arrange type bytes).length = bytes.length := by
  cases order <;> simp [arrange]

example : ByteOrder.big.arrange .complex64 [0, 1, 2, 3, 4, 5, 6, 7]
    = [3, 2, 1, 0, 7, 6, 5, 4] := by decide

end ChunkedArray
