import ChunkedArray.Bytes

/-!
# ChunkedArray.Store.ByteRange

Requests for parts of a stored value: some bytes from an offset, all bytes from
an offset, or the last bytes.

A list of ranges is answered only if every range lies inside the value. The
first one that does not is the error, whatever the ranges before it hold.
-/

namespace ChunkedArray

/-- Some bytes of a value. -/
inductive ByteRange
  /-- The bytes from an offset on: so many, or all of them. -/
  | fromStart (offset : UInt64) (length : Option UInt64)
  /-- The last bytes. -/
  | suffix (length : UInt64)
  deriving DecidableEq, Repr

/-- A range that does not lie inside its value. -/
structure ByteRangeError where
  range : ByteRange
  size : Nat
  deriving DecidableEq, Repr

namespace ByteRange

/-- Does the range lie inside a value of `size` bytes? -/
def within (size : Nat) : ByteRange → Bool
  | fromStart offset length => offset.toNat + (length.getD 0).toNat ≤ size
  | suffix length => length.toNat ≤ size

/-- The bytes of a range that lies inside the value. -/
def slice (bytes : Bytes) : ByteRange → Bytes
  | fromStart offset none => bytes.drop offset.toNat
  | fromStart offset (some length) => (bytes.drop offset.toNat).take length.toNat
  | suffix length => bytes.drop (bytes.length - length.toNat)

/-- The bytes of each range, or the first range that leaves the value. -/
def extract (bytes : Bytes) (ranges : List ByteRange) : Except ByteRangeError (List Bytes) :=
  match ranges.find? fun range => !range.within bytes.length with
  | some range => .error ⟨range, bytes.length⟩
  | none => .ok (ranges.map (slice bytes))

/-- A range inside a message. The start is left out where it is zero, the end
where it is the end of the value. -/
def text : ByteRange → String
  | fromStart offset length =>
    let start := if offset = 0 then "" else toString offset.toNat
    let stop := length.elim "" fun length => toString (offset.toNat + length.toNat)
    s!"{start}..{stop}"
  | suffix length =>
    let count := length.toNat
    s!"-{count}.."

theorem extract_eq_ok {bytes : Bytes} {ranges : List ByteRange} {parts : List Bytes} :
    extract bytes ranges = .ok parts ↔
      (∀ range ∈ ranges, range.within bytes.length) ∧ ranges.map (slice bytes) = parts := by
  unfold extract
  split
  · rename_i range h
    have hmem := List.mem_of_find?_eq_some h
    have hbad := List.find?_some h
    constructor
    · intro h; cases h
    · intro h
      have := h.1 range hmem
      simp_all
  · rename_i h
    simp only [List.find?_eq_none, Bool.not_eq_true] at h
    constructor
    · intro heq
      exact ⟨fun range hr => by simpa using h range hr, by injection heq⟩
    · rintro ⟨_, rfl⟩; rfl

end ByteRange

/-- The wording of a range error. -/
def ByteRangeError.message (error : ByteRangeError) : String :=
  let range := error.range.text
  let size := error.size
  s!"invalid byte range {range} for bytes of length {size}"

example : ByteRange.extract [1, 2, 3] [.fromStart 1 (some 1), .suffix 2] = .ok [[2], [2, 3]] := rfl
example : ByteRange.extract [1] [.suffix 1, .suffix 2] = .error ⟨.suffix 2, 1⟩ := rfl

end ChunkedArray
