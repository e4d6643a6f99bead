import ChunkedArray.Store.Job

/-!
# ChunkedArray.Store.Table

A store that is a finite map. Any key may hold a value; parts are cut from the
whole value, so asking for parts is a `get`. Some calls on some keys may be
refused: such a call changes nothing but the log, in which every call is noted
before it is answered.
-/

namespace ChunkedArray

/-- The values of a store, and the calls made so far, the latest first. -/
structure Table where
  values : Entries String Bytes := {}
  log : List (Verb × String) := []
  deriving Repr

namespace Table

/-- The table with a call noted. -/
def note (table : Table) (verb : Verb) (key : String) : Table :=
  { table with log := (verb, key) :: table.log }

/-- The table with a value put under a key. -/
def put (table : Table) (key : String) (value : Bytes) : Table :=
  { table with values := table.values.insert key value }

/-- The table without the value under a key. -/
def drop (table : Table) (key : String) : Table :=
  { table with values := table.values.erase key }

/-- The table with nothing noted. -/
def forgetCalls (table : Table) : Table := { table with log := [] }

/-- The fault of a call that is refused. -/
def refusal (verb : Verb) (key : String) : AccessError := .store key (.refused verb)

/-- The requested parts of a value. -/
def parts (key : String) (ranges : List ByteRange) (value : Bytes) : Outcome (List Bytes) :=
  (ByteRange.extract value ranges).mapError fun error => .store key (.range error)

/-- The answer to a call. -/
def answer (refuses : Verb → String → Bool) :
    (call : StoreCall) → Table → Outcome call.Answer × Table
  | .get key, table =>
    (if refuses .get key then .error (refusal .get key) else .ok (table.values.get? key),
      table.note .get key)
  | .getPartial key ranges, table =>
    (if refuses .get key then .error (refusal .get key)
      else match table.values.get? key with
      | none => .ok none
      | some value => (parts key ranges value).map some,
      table.note .get key)
  | .set key value, table =>
    if refuses .set key then (.error (refusal .set key), table.note .set key)
    else (.ok (), (table.note .set key).put key value)
  | .erase key, table =>
    if refuses .erase key then (.error (refusal .erase key), table.note .erase key)
    else (.ok (), (table.note .erase key).drop key)

/-- The store that a table is, with some calls refused. -/
def store (refuses : Verb → String → Bool) : Store Table := ⟨answer refuses⟩

end Table

end ChunkedArray
