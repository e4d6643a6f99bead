import ChunkedArray.Text.Blank
import ChunkedArray.Text.Decimal
import Mathlib.Data.List.DropRight
import Mathlib.Data.Nat.Digits.Defs

/-!
# ChunkedArray.Proofs.Text.Decimal

What trimming leaves of a text, and which texts denote a number.

`TrimsTo` and `Denotes` say so without the functions that read: a text is blanks around its core,
which has none at its ends, and a decimal text is digits that count by their places, with a plus
sign in front at most. Trimming finds the core of every text (`trimBlanks_eq_iff`), and reading a
word succeeds just on the texts that denote one (`readWord_eq_some_iff`), of whatever length they
are.
-/

namespace ChunkedArray

variable {text core digits : List Char}

/-! ### Trimming -/

/-- The text is the core with blanks around it, and the core has none at its ends. -/
structure TrimsTo (text core : List Char) : Prop where
  surrounded : ∃ front back, text = front ++ core ++ back ∧
    (∀ c ∈ front, isBlank c) ∧ ∀ c ∈ back, isBlank c
  head : ∀ c ∈ core.head?, ¬ isBlank c
  last : ∀ c ∈ core.getLast?, ¬ isBlank c

theorem trimBlanks_trimsTo (text : List Char) : TrimsTo text (trimBlanks text) where
  surrounded := by
    refine ⟨text.takeWhile isBlank, (text.dropWhile isBlank).rtakeWhile isBlank, ?_,
      fun c hc => List.mem_takeWhile_imp hc, fun c hc => List.mem_rtakeWhile_imp hc⟩
    have hcore : trimBlanks text ++ (text.dropWhile isBlank).rtakeWhile isBlank =
        text.dropWhile isBlank := List.rdropWhile_append_rtakeWhile
    rw [List.append_assoc, hcore, List.takeWhile_append_dropWhile]
  head := by
    intro c hc
    -- the core begins as the text does behind its first blanks
    have hcore : trimBlanks text <+: text.dropWhile isBlank := List.rdropWhile_prefix ..
    obtain ⟨rest, hrest⟩ := hcore
    have hfirst := List.head?_dropWhile_not isBlank text
    rw [← hrest, List.head?_append, Option.mem_def.mp hc] at hfirst
    simpa using hfirst
  last := by
    intro c hc
    obtain ⟨hne, rfl⟩ := List.mem_getLast?_eq_getLast hc
    exact List.rdropWhile_last_not _ _ hne

/-- **Trimming finds the core of every text.** -/
theorem trimBlanks_eq_iff : trimBlanks text = core ↔ TrimsTo text core := by
  constructor
  · intro h
    rw [← h]
    exact trimBlanks_trimsTo text
  · intro h
    obtain ⟨front, back, rfl, hfront, hback⟩ := h.surrounded
    show List.rdropWhile isBlank (List.dropWhile isBlank (front ++ core ++ back)) = core
    rw [List.append_assoc, List.dropWhile_append_of_pos hfront]
    cases core with
    | nil =>
      rw [List.nil_append, List.dropWhile_eq_nil_iff.mpr hback, List.rdropWhile_nil]
    | cons c rest =>
      have hlast : List.rdropWhile isBlank (c :: rest) = c :: rest := by
        rw [List.rdropWhile_eq_self_iff]
        exact fun hne => h.last _ (List.getLast?_eq_some_getLast hne)
      rw [List.cons_append, List.dropWhile_cons_of_neg (h.head c rfl), ← List.cons_append,
        List.rdropWhile, List.reverse_append,
        List.dropWhile_append_of_pos fun c hc => hback c (List.mem_reverse.mp hc)]
      exact hlast

/-! ### Decimal numbers -/

/-- The number that a decimal digit stands for. -/
def digitValue (digit : Char) : Nat := digit.toNat - '0'.toNat

/-- The text is one or more decimal digits, with one plus sign in front at most, and the digits
denote the number: the last one counts ones, and every other ten times as much as the next. -/
def Denotes (text : List Char) (number : Nat) : Prop :=
  ∃ sign digits, text = sign ++ digits ∧ (sign = [] ∨ sign = ['+']) ∧ digits ≠ [] ∧
    (∀ digit ∈ digits, '0' ≤ digit ∧ digit ≤ '9') ∧
    number = Nat.ofDigits 10 (digits.reverse.map digitValue)

theorem isDigit_iff {c : Char} : c.isDigit ↔ '0' ≤ c ∧ c ≤ '9' := by
  simp [Char.isDigit, Char.le_def]

theorem digitsValue_eq (digits : List Char) :
    digitsValue digits = Nat.ofDigits 10 (digits.reverse.map digitValue) := by
  induction digits using List.reverseRecOn with
  | nil => rfl
  | append_singleton digits digit ih =>
    rw [List.reverse_append, List.reverse_singleton, List.singleton_append, List.map_cons,
      Nat.ofDigits_cons, ← ih, digitsValue, List.foldl_append, ← digitsValue]
    show digitsValue digits * 10 + digitValue digit = _
    rw [Nat.add_comm, Nat.mul_comm]

theorem exists_sign (text : List Char) :
    ∃ sign, text = sign ++ unsigned text ∧ (sign = [] ∨ sign = ['+']) := by
  unfold unsigned
  split
  next digits => exact ⟨['+'], rfl, Or.inr rfl⟩
  next digits _ => exact ⟨[], rfl, Or.inl rfl⟩

/-- A plus sign is no digit, so the digits of a decimal text are found. -/
theorem unsigned_append {sign : List Char} (hsign : sign = [] ∨ sign = ['+'])
    (hdigits : ∀ digit ∈ digits, '0' ≤ digit ∧ digit ≤ '9') : unsigned (sign ++ digits) = digits := by
  rcases hsign with rfl | rfl
  · rw [List.nil_append, unsigned]
    intro rest hrest
    subst hrest
    exact absurd (hdigits '+' List.mem_cons_self).1 (by decide)
  · rfl

/-- **Reading a word succeeds just on the texts that denote one.** -/
theorem readWord_eq_some_iff {word : UInt64} :
    readWord text = some word ↔ Denotes text word.toNat := by
  constructor
  · intro h
    simp only [readWord] at h
    split at h
    next hdigits =>
      obtain ⟨hne, hall, hlt⟩ := hdigits
      obtain rfl := Option.some.inj h
      obtain ⟨sign, htext, hsign⟩ := exists_sign text
      refine ⟨sign, unsigned text, htext, hsign, hne,
        fun digit hdigit => isDigit_iff.mp (List.all_eq_true.mp hall digit hdigit), ?_⟩
      rw [← digitsValue_eq]
      exact UInt64.toNat_ofNat_of_lt' hlt
    next => cases h
  · intro h
    obtain ⟨sign, digits, rfl, hsign, hne, hall, hword⟩ := h
    rw [← digitsValue_eq] at hword
    have hdigits : digits.all Char.isDigit :=
      List.all_eq_true.mpr fun digit hdigit => isDigit_iff.mpr (hall digit hdigit)
    simp only [readWord, unsigned_append hsign hall]
    rw [if_pos ⟨hne, hdigits, hword ▸ word.toNat_lt⟩, ← hword]
    exact congrArg some UInt64.ofNat_toNat

end ChunkedArray
