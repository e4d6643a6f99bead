/-!
# ChunkedArray.Store.Entries

A finite map from keys to values, kept as a list of pairs. The view of a map is
`get?`: `get?_insert` and `get?_erase` say what the two operations do to it.
-/

namespace ChunkedArray

/-- A finite map. -/
structure Entries (κ ν : Type) where
  pairs : List (κ × ν) := []
  deriving Repr

namespace Entries

private theorem find?_filter_of_imp {α : Type} {p q : α → Bool} (items : List α)
    (h : ∀ item, p item → q item) : (items.filter q).find? p = items.find? p := by
  induction items with
  | nil => rfl
  | cons item items ih =>
    have := h item
    cases hq : q item <;> cases hp : p item <;> simp_all

private theorem find?_filter_of_disjoint {α : Type} {p q : α → Bool} (items : List α)
    (h : ∀ item, p item → q item = false) : (items.filter q).find? p = none := by
  induction items with
  | nil => rfl
  | cons item items ih =>
    have := h item
    cases hq : q item <;> cases hp : p item <;> simp_all

variable {κ ν : Type} [DecidableEq κ]

/-- The map without entries. -/
def empty : Entries κ ν := {}

/-- The value under a key. -/
def get? (entries : Entries κ ν) (key : κ) : Option ν :=
  (entries.pairs.find? fun pair => pair.1 = key).map Prod.snd

/-- The map without a key. -/
def erase (entries : Entries κ ν) (key : κ) : Entries κ ν :=
  ⟨entries.pairs.filter fun pair => pair.1 ≠ key⟩

/-- The map with a value put under a key. -/
def insert (entries : Entries κ ν) (key : κ) (value : ν) : Entries κ ν :=
  ⟨(key, value) :: (entries.erase key).pairs⟩

/-- The keys that have a value. -/
def keys (entries : Entries κ ν) : List κ := entries.pairs.map Prod.fst

@[simp] theorem get?_empty (key : κ) : (empty : Entries κ ν).get? key = none := rfl

theorem get?_erase (entries : Entries κ ν) (key other : κ) :
    (entries.erase key).get? other = if other = key then none else entries.get? other := by
  unfold get? erase
  split
  · subst_vars
    rw [find?_filter_of_disjoint]
    · rfl
    · simp
  · rename_i h
    rw [find?_filter_of_imp]
    simp only [decide_eq_true_eq]
    rintro pair rfl
    exact h

theorem get?_insert (entries : Entries κ ν) (key other : κ) (value : ν) :
    (entries.insert key value).get? other =
      if other = key then some value else entries.get? other := by
  have herase := entries.get?_erase key other
  unfold insert get? at *
  by_cases h : key = other
  · simp [h]
  · have h' : other ≠ key := fun e => h e.symm
    simp_all

end Entries

end ChunkedArray
