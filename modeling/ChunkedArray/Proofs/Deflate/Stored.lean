import ChunkedArray.Deflate.Inflate
import ChunkedArray.Proofs.Outcome

/-!
# ChunkedArray.Proofs.Deflate.Stored

Inflating undoes storing (`inflate_deflateStored`).

A stream of bits that begins with the bits of a number, or of some bytes, is read up to their
end, whatever is behind. Each of the stored blocks is three bits, the rest of its first byte,
and whole bytes; so a block ends where the next one begins, and the last one where the bytes
behind the data begin.
-/

namespace ChunkedArray.Deflate

namespace Bits

/-! ### Bits that are written and read -/

@[simp] theorem length_ofNat (count value : Nat) : (ofNat count value).length = count := by
  induction count generalizing value with
  | zero => rfl
  | succ count ih => rw [ofNat, List.length_cons, ih]

theorem ofNat_add (first second value : Nat) :
    ofNat (first + second) value = ofNat first value ++ ofNat second (value >>> first) := by
  induction first generalizing value with
  | zero => simp [ofNat]
  | succ first ih =>
    rw [Nat.succ_add, ofNat, ofNat, ih, Nat.shiftRight_succ_inside, List.cons_append]

theorem ofBytes_cons (octet : UInt8) (bytes : Bytes) :
    ofBytes (octet :: bytes) = ofNat 8 octet.toNat ++ ofBytes bytes := rfl

theorem ofBytes_append (first second : Bytes) :
    ofBytes (first ++ second) = ofBytes first ++ ofBytes second := List.flatMap_append

@[simp] theorem length_ofBytes (bytes : Bytes) : (ofBytes bytes).length = 8 * bytes.length := by
  induction bytes with
  | nil => rfl
  | cons octet bytes ih =>
    rw [ofBytes_cons, List.length_append, ih, length_ofNat, List.length_cons, Nat.mul_succ,
      Nat.add_comm]

/-- What is written are the lowest bits of a number. -/
theorem ofNat_eq_testBits (count value : Nat) :
    ofNat count value = (List.range count).map value.testBit := by
  induction count generalizing value with
  | zero => rfl
  | succ count ih =>
    rw [ofNat, ih, List.range_succ_eq_map, List.map_cons, List.map_map, Nat.testBit_zero]
    congr 1
    exact List.map_congr_left fun place _ => (Nat.testBit_succ value place).symm

/-- A number that has no more bits than are written is read back. -/
theorem read_ofNat {count value : Nat} (h : value >>> count = 0) (rest : Bits) :
    read count (ofNat count value ++ rest) = .ok (value, rest) := by
  induction count generalizing value with
  | zero =>
    obtain rfl : value = 0 := h
    rfl
  | succ count ih =>
    rw [Nat.shiftRight_succ_inside] at h
    have hvalue : (value % 2 == 1).toNat + 2 * (value / 2) = value := by
      rcases Nat.mod_two_eq_zero_or_one value with hbit | hbit <;> simp [hbit] <;> omega
    rw [ofNat, List.cons_append, read, ih h]
    show Except.ok ((value % 2 == 1).toNat + 2 * (value / 2), rest) = _
    rw [hvalue]

/-- The bits of a number are those of its bytes, the low byte first. -/
theorem ofBytes_littleEndian (count value : Nat) :
    ofBytes (Bytes.littleEndian count value) = ofNat (8 * count) value := by
  induction count generalizing value with
  | zero => rfl
  | succ count ih =>
    have hlow : ofNat 8 (UInt8.ofNat value).toNat = ofNat 8 value := by
      rw [ofNat_eq_testBits, ofNat_eq_testBits]
      refine List.map_congr_left fun place hplace => ?_
      rw [UInt8.toNat_ofNat', Nat.testBit_mod_two_pow, decide_eq_true (List.mem_range.mp hplace),
        Bool.true_and]
    have hrest : value >>> 8 = value / 256 := Nat.shiftRight_eq_div_pow value 8
    rw [Bytes.littleEndian, ofBytes_cons, hlow, ih, Nat.mul_succ, Nat.add_comm, ofNat_add, hrest]

theorem readBytes_ofBytes (bytes : Bytes) (rest : Bits) :
    readBytes bytes.length (ofBytes bytes ++ rest) = .ok (bytes, rest) := by
  induction bytes with
  | nil => rfl
  | cons octet bytes ih =>
    have hoctet : octet.toNat >>> 8 = 0 := by
      rw [Nat.shiftRight_eq_div_pow]
      exact Nat.div_eq_of_lt octet.toNat_lt
    rw [ofBytes_cons, List.append_assoc, List.length_cons, readBytes, read_ofNat hoctet]
    show (readBytes bytes.length (ofBytes bytes ++ rest) >>= fun octets => _) = _
    rw [ih]
    show Except.ok (UInt8.ofNat octet.toNat :: bytes, rest) = _
    rw [UInt8.ofNat_toNat]

/-- The bits that are left of a byte are skipped. -/
theorem align_append {bits : Bits} (h : bits.length < 8) (bytes : Bytes) :
    align (bits ++ ofBytes bytes) = ofBytes bytes := by
  have hinside : (bits ++ ofBytes bytes).length % 8 = bits.length := by
    rw [List.length_append, length_ofBytes]
    omega
  rw [align, hinside, List.drop_left]

/-- A number of two bytes is read back. -/
theorem read_littleEndian {value : Nat} (h : value ≤ largestBlock) (rest : Bits) :
    read 16 (ofBytes (Bytes.littleEndian 2 value) ++ rest) = .ok (value, rest) := by
  have hvalue : value >>> 16 = 0 := by
    rw [Nat.shiftRight_eq_div_pow]
    exact Nat.div_eq_of_lt (Nat.lt_succ_of_le h)
  rw [ofBytes_littleEndian, read_ofNat hvalue]

end Bits

/-! ### Stored blocks -/

theorem length_storedBlock (last : Bool) (octets : Bytes) :
    (storedBlock last octets).length = 5 + octets.length := by
  simp [storedBlock]
  omega

/-- A stored block is read up to its end. -/
theorem readStored_eq {octets : Bytes} (hsize : octets.length ≤ largestBlock) {skipped : Bits}
    (hskipped : skipped.length < 8) (more : Bytes) (out : Array UInt8) :
    readStored (skipped ++ Bits.ofBytes (Bytes.littleEndian 2 octets.length ++
      Bytes.littleEndian 2 (largestBlock - octets.length) ++ octets ++ more)) out =
      .ok (out ++ octets, Bits.ofBytes more) := by
  have hsum : octets.length + (largestBlock - octets.length) = 0xFFFF := by
    rw [Nat.add_sub_cancel' hsize]
    rfl
  rw [readStored, Bits.align_append hskipped]
  simp only [Bits.ofBytes_append, List.append_assoc]
  rw [Bits.read_littleEndian hsize, Outcome.ok_bind]
  dsimp only
  rw [Bits.read_littleEndian (Nat.sub_le ..), Outcome.ok_bind]
  dsimp only
  rw [if_neg (not_not.mpr hsum), Bits.readBytes_ofBytes]
  rfl

/-- Behind a stored block the next one is read, unless it is the last. -/
theorem readBlocks_storedBlock (last : Bool) {octets : Bytes}
    (hsize : octets.length ≤ largestBlock) (more : Bytes) (fuel : Nat) (out : Array UInt8) :
    readBlocks (fuel + 1) (Bits.ofBytes (storedBlock last octets ++ more)) out =
      if last then .ok (out ++ octets, Bits.ofBytes more)
      else readBlocks fuel (Bits.ofBytes more) (out ++ octets) := by
  -- the first byte: a bit for the last block, two for the kind, five that are skipped
  have hfirst : Bits.ofNat 8 (UInt8.ofNat last.toNat).toNat =
      Bits.ofNat 1 last.toNat ++ (Bits.ofNat 2 0 ++ Bits.ofNat 5 0) := by cases last <;> rfl
  have hlast : last.toNat >>> 1 = 0 := by cases last <;> rfl
  rw [storedBlock, List.cons_append, List.cons_append, List.cons_append, Bits.ofBytes_cons, hfirst,
    List.append_assoc, List.append_assoc, readBlocks, Bits.read_ofNat hlast, Outcome.ok_bind]
  dsimp only
  rw [Bits.read_ofNat rfl, Outcome.ok_bind]
  dsimp only
  rw [readBlock, readStored_eq hsize (by simp), Outcome.ok_bind]
  cases last <;> rfl

/-- Stored blocks are read to the end of the last one. -/
theorem readBlocks_storedBlocks {count : Nat} {octets : Bytes}
    (hsize : octets.length ≤ (count + 1) * largestBlock) (rest : Bytes) {fuel : Nat}
    (hfuel : count < fuel) (out : Array UInt8) :
    readBlocks fuel (Bits.ofBytes (storedBlocks count octets ++ rest)) out =
      .ok (out ++ octets, Bits.ofBytes rest) := by
  -- on the full blocks in front of the last one, each of which uses up one step
  induction count generalizing octets fuel out with
  | zero =>
    obtain ⟨fuel, rfl⟩ := Nat.exists_eq_succ_of_ne_zero (Nat.ne_of_gt hfuel)
    rw [storedBlocks, readBlocks_storedBlock true (by simpa using hsize), if_pos rfl]
  | succ count ih =>
    obtain ⟨fuel, rfl⟩ := Nat.exists_eq_succ_of_ne_zero (Nat.ne_of_gt (Nat.zero_lt_of_lt hfuel))
    have hrest : (octets.drop largestBlock).length ≤ (count + 1) * largestBlock := by
      rw [Nat.succ_mul] at hsize
      rw [List.length_drop]
      omega
    have hwhole : out ++ octets.take largestBlock ++ octets.drop largestBlock = out ++ octets :=
      Array.ext' (by simp)
    rw [storedBlocks, List.append_assoc, readBlocks_storedBlock false (List.length_take_le ..),
      if_neg Bool.false_ne_true, ih hrest (Nat.lt_of_succ_lt_succ hfuel), hwhole]

theorem length_storedBlocks (count : Nat) (octets : Bytes) :
    (storedBlocks count octets).length = 5 * (count + 1) + octets.length := by
  induction count generalizing octets with
  | zero => rw [storedBlocks, length_storedBlock, Nat.zero_add]
  | succ count ih =>
    rw [storedBlocks, List.length_append, length_storedBlock, ih, List.length_drop,
      List.length_take]
    omega

/-- **Inflating stored data gives the data**, and the bytes behind it. -/
theorem inflate_deflateStored (octets rest : Bytes) :
    inflate (deflateStored octets ++ rest) = .ok (octets, rest) := by
  have hsize : octets.length ≤ (octets.length / largestBlock + 1) * largestBlock :=
    Nat.le_of_lt (Nat.lt_mul_of_div_lt (Nat.lt_succ_self _) (by decide))
  have hfuel : octets.length / largestBlock <
      (Bits.ofBytes (deflateStored octets ++ rest)).length + 1 := by
    rw [Bits.length_ofBytes, List.length_append, deflateStored, length_storedBlocks]
    omega
  have hblocks : readBlocks ((Bits.ofBytes (deflateStored octets ++ rest)).length + 1)
      (Bits.ofBytes (deflateStored octets ++ rest)) #[] = .ok (#[] ++ octets, Bits.ofBytes rest) :=
    readBlocks_storedBlocks hsize rest hfuel #[]
  -- the bits that are left tell how many bytes are left
  have hbehind : (deflateStored octets ++ rest).length - 8 * rest.length / 8 =
      (deflateStored octets).length := by
    rw [Nat.mul_div_cancel_left _ (by decide), List.length_append, Nat.add_sub_cancel]
  rw [inflate, hblocks, Outcome.ok_bind]
  dsimp only
  rw [Bits.length_ofBytes, hbehind, List.drop_left, Outcome.pure_eq_ok]
  simp

end ChunkedArray.Deflate
