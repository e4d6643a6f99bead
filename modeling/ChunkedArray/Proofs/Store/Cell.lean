import ChunkedArray.Proofs.Store.Job
import ChunkedArray.Store.Table

/-!
# ChunkedArray.Proofs.Store.Cell

What is stored under one key, seen as a store of its own (`Cell.store`), and the
stores that are made of such cells, one for each key (`Store.Keeps`).

How the cells answer is a parameter. A cell may answer every call, refuse the calls
of some kinds (`Cell.refusing`, as a table does), or fail at any time without giving
a reason beforehand (`Cell.unreliable`). A store of the last kind is a map whose
calls may fail in any pattern (`Store.IsMap`); a call that fails changes nothing.

The main statement is `Job.ensures_of_commits`: on an unreliable cell a job that
commits leaves what was there before if it fails, and what it leaves on a cell that
never fails if it does not.
-/

namespace ChunkedArray

/-- The kind of a call. -/
def StoreCall.verb : StoreCall → Verb
  | get _ | getPartial .. => .get
  | set .. => .set
  | erase _ => .erase

/-- What is stored under a key. -/
abbrev Cell := Option Bytes

namespace Cell

/-- The answer to a call on the key, and what is stored under it afterwards. -/
def answer : (call : StoreCall) → Cell → Outcome call.Answer × Cell
  | .get _, cell => (.ok cell, cell)
  | .getPartial _ _, none => (.ok none, none)
  | .getPartial key ranges, some value => ((Table.parts key ranges value).map some, some value)
  | .set _ value, _ => (.ok (), some value)
  | .erase _, _ => (.ok (), none)

/-- A key as a store of its own. -/
def store : Store Cell := ⟨answer⟩

/-- A key as a store that refuses some calls. -/
def refusing (refuses : Verb → String → Bool) : Store Cell where
  answer call cell :=
    if refuses call.verb call.key then (.error (Table.refusal call.verb call.key), cell)
    else answer call cell

/-- A key any call on which may fail at any time, which then changes nothing. -/
def unreliable : Answering Cell := fun call cell answer after =>
  Cell.answer call cell = (answer, after) ∨ (∃ error, answer = .error error) ∧ after = cell

theorem answer_read {call : StoreCall} (h : call.isRead) (cell : Cell) :
    (answer call cell).2 = cell := by
  cases call with
  | get key => rfl
  | getPartial key ranges => cases cell <;> rfl
  | set key value => simp [StoreCall.isRead] at h
  | erase key => simp [StoreCall.isRead] at h

theorem refusing_read (refuses : Verb → String → Bool) {call : StoreCall} (h : call.isRead)
    (cell : Cell) : ((refusing refuses).answer call cell).2 = cell := by
  simp only [refusing]
  split
  · rfl
  · exact answer_read h cell

theorem run_readsOnly {α : Type} {key : String} {job : Job α} (h : job.ReadsOnly key)
    (cell : Cell) : (job.run store cell).2 = cell := by
  induction job generalizing cell with
  | done outcome => rfl
  | ask call next ih =>
    rw [Job.run_ask, ih _ (h.2 _)]
    exact answer_read h.1.2 cell

/-- A call that is not a read succeeds on a cell that never fails. -/
theorem answer_write {call : StoreCall} (h : call.isRead = false) (cell : Cell) :
    ∃ value, (answer call cell).1 = .ok value := by
  cases call with
  | get key => simp [StoreCall.isRead] at h
  | getPartial key ranges => simp [StoreCall.isRead] at h
  | set key value => exact ⟨(), rfl⟩
  | erase key => exact ⟨(), rfl⟩

/-- With nothing refused, a refusing cell is a cell. -/
theorem refusing_none : refusing (fun _ _ => false) = store := rfl

end Cell

/-- Reads leave what they read alone. -/
def Answering.KeepsOnRead {γ : Type} (answers : Answering γ) : Prop :=
  ∀ ⦃call : StoreCall⦄ ⦃share answer after⦄, call.isRead → answers call share answer after →
    after = share

theorem Cell.unreliable_keepsOnRead : Cell.unreliable.KeepsOnRead := by
  rintro call cell answer after hread (hans | ⟨-, rfl⟩)
  · rw [← Cell.answer_read hread cell, hans]
  · rfl

theorem Cell.refusing_keepsOnRead (refuses : Verb → String → Bool) :
    (Cell.refusing refuses).answering.KeepsOnRead := by
  intro call cell answer after hread hans
  simp only [Store.answering] at hans
  rw [← Cell.refusing_read refuses hread cell, hans]

theorem Cell.store_keepsOnRead : Cell.store.answering.KeepsOnRead := by
  rw [← Cell.refusing_none]
  exact Cell.refusing_keepsOnRead _

/-- A job that only reads leaves what it reads alone. -/
theorem Job.ensures_of_readsOnly {α γ : Type} {answers : Answering γ} (hread : answers.KeepsOnRead)
    {key : String} {job : Job α} (h : job.ReadsOnly key) (share : γ) :
    job.Ensures answers (fun _ after => after = share) share := by
  induction job generalizing share with
  | done outcome => rfl
  | ask call next ih =>
    intro answer after hans
    obtain rfl := hread h.1.2 hans
    exact ih answer (h.2 answer) after

/-! ### Stores made of cells -/

variable {σ α : Type}

/-- The store keeps a value for each key: a call is answered from the cell of its own
key, and no other cell changes. -/
structure Store.Keeps (store : Store σ) (value : σ → String → Cell) (answers : Answering Cell) :
    Prop where
  own : ∀ call state, answers call (value state call.key) (store.answer call state).1
    (value (store.answer call state).2 call.key)
  others : ∀ call state key, key ≠ call.key →
    value (store.answer call state).2 key = value state key

/-- The store is a map of keys to values. Any call may fail, at any time; a call that
fails changes nothing. -/
def Store.IsMap (store : Store σ) (value : σ → String → Cell) : Prop :=
  store.Keeps value Cell.unreliable

/-- What a table holds under a key. -/
def Table.value (table : Table) (key : String) : Cell := table.values.get? key

@[simp] theorem Table.value_empty (key : String) : Table.value {} key = none := rfl

/-- A table refuses a call without touching the value under its key. -/
theorem Table.answer_refused {refuses : Verb → String → Bool} {call : StoreCall}
    (h : refuses call.verb call.key = true) (table : Table) :
    ((Table.answer refuses call table).1, (Table.answer refuses call table).2.value call.key)
      = (.error (refusal call.verb call.key), table.value call.key) := by
  cases call with
  | get key | getPartial key ranges | set key value | erase key =>
    simp only [StoreCall.verb, StoreCall.key] at h
    simp [Table.answer, Table.value, Table.note, StoreCall.verb, StoreCall.key, h]

/-- A table that does not refuse a call answers it from the value under the key, and
keeps there what the call leaves. -/
theorem Table.answer_served {refuses : Verb → String → Bool} {call : StoreCall}
    (h : refuses call.verb call.key = false) (table : Table) :
    ((Table.answer refuses call table).1, (Table.answer refuses call table).2.value call.key)
      = Cell.answer call (table.value call.key) := by
  cases call with
  | get key =>
    simp only [StoreCall.verb, StoreCall.key] at h
    simp [Table.answer, Table.value, Table.note, Cell.answer, StoreCall.key, h]
  | getPartial key ranges =>
    simp only [StoreCall.verb, StoreCall.key] at h
    cases hvalue : table.values.get? key with
    | none => simp [Table.answer, Table.value, Table.note, Cell.answer, StoreCall.key, h, hvalue]
    | some value =>
      simp [Table.answer, Table.value, Table.note, Cell.answer, StoreCall.key, h, hvalue]
  | set key value =>
    simp only [StoreCall.verb, StoreCall.key] at h
    simp [Table.answer, Table.value, Table.put, Cell.answer, StoreCall.key, h,
      Entries.get?_insert]
  | erase key =>
    simp only [StoreCall.verb, StoreCall.key] at h
    simp [Table.answer, Table.value, Table.drop, Cell.answer, StoreCall.key, h,
      Entries.get?_erase]

theorem Table.answer_others (refuses : Verb → String → Bool) (call : StoreCall) (table : Table)
    {key : String} (h : key ≠ call.key) :
    (Table.answer refuses call table).2.value key = table.value key := by
  cases call with
  | get own => rfl
  | getPartial own ranges => rfl
  | set own value =>
    simp only [Table.answer]
    split
    · rfl
    · simpa [Table.value, Table.put, Table.note, Entries.get?_insert, StoreCall.key] using
        fun heq => absurd heq h
  | erase own =>
    simp only [Table.answer]
    split
    · rfl
    · simpa [Table.value, Table.drop, Table.note, Entries.get?_erase, StoreCall.key] using
        fun heq => absurd heq h

theorem Table.store_keeps (refuses : Verb → String → Bool) :
    (Table.store refuses).Keeps Table.value (Cell.refusing refuses).answering where
  own call table := by
    cases hrefused : refuses call.verb call.key with
    | true =>
      have hans := Table.answer_refused hrefused table
      simpa [Store.answering, Cell.refusing, Table.store, hrefused] using hans.symm
    | false =>
      have hans := Table.answer_served hrefused table
      simpa [Store.answering, Cell.refusing, Table.store, hrefused] using hans.symm
  others call table _ h := Table.answer_others refuses call table h

/-- A table that refuses nothing answers from its values alone. -/
theorem Table.store_serves :
    (Table.store fun _ _ => false).Keeps Table.value Cell.store.answering := by
  rw [← Cell.refusing_none]
  exact Table.store_keeps _

theorem Table.store_isMap (refuses : Verb → String → Bool) :
    (Table.store refuses).IsMap Table.value where
  own call table := by
    cases hrefused : refuses call.verb call.key with
    | true =>
      have hans := Table.answer_refused hrefused table
      simp only [Prod.mk.injEq] at hans
      exact Or.inr ⟨⟨_, hans.1⟩, hans.2⟩
    | false => exact Or.inl (Table.answer_served hrefused table).symm
  others call table _ h := Table.answer_others refuses call table h

namespace Store.Keeps

variable {store : Store σ} {value : σ → String → Cell} {answers : Answering Cell}

/-- A job leaves the keys alone that it makes no calls on. -/
theorem run_others (h : store.Keeps value answers) {job : Job α} {key other : String}
    (hjob : job.CallsOnly (·.key = key)) (hne : other ≠ key) (state : σ) :
    value (job.run store state).2 other = value state other := by
  induction job generalizing state with
  | done outcome => rfl
  | ask call next ih =>
    rw [Job.run_ask, ih _ (hjob.2 _), h.others call state other (hjob.1 ▸ hne)]

/-- A job on one key does there what it does on the cell of the key alone. -/
theorem run_own {cell : Store Cell} (h : store.Keeps value cell.answering) {job : Job α}
    {key : String} (hjob : job.CallsOnly (·.key = key)) (state : σ) :
    ((job.run store state).1, value (job.run store state).2 key)
      = job.run cell (value state key) := by
  induction job generalizing state with
  | done outcome => rfl
  | ask call next ih =>
    obtain ⟨rfl, hnext⟩ := hjob
    have hown := h.own call state
    simp only [Store.answering] at hown
    rw [Job.run_ask, ih _ (hnext _), Job.run_ask, hown]

/-- A job that only reads leaves all keys alone. -/
theorem run_reads (h : store.Keeps value answers) (hread : answers.KeepsOnRead) {job : Job α}
    {key : String} (hjob : job.ReadsOnly key) (state : σ) (other : String) :
    value (job.run store state).2 other = value state other := by
  induction job generalizing state with
  | done outcome => rfl
  | ask call next ih =>
    rw [Job.run_ask, ih _ (hjob.2 _)]
    by_cases hkey : other = call.key
    · rw [hkey]
      exact hread hjob.1.2 (h.own call state)
    · exact h.others call state other hkey

end Store.Keeps

/-! ### Committing on a cell that may fail -/

/-- On a key that may fail, a job that commits and fails leaves the value as it was;
one that succeeds leaves what it leaves where no call fails. -/
theorem Job.ensures_of_commits {job : Job α} (h : job.Commits) (cell : Cell) :
    job.Ensures Cell.unreliable (fun outcome after =>
      (∀ error, outcome = .error error → after = cell) ∧
      ∀ result, outcome = .ok result → job.run Cell.store cell = (.ok result, after)) cell := by
  induction job generalizing cell with
  | done outcome =>
    exact ⟨fun _ _ => rfl, fun result hok => by rw [hok]; rfl⟩
  | ask call next ih =>
    obtain ⟨hfail, hgo⟩ := h
    rintro answer after (hans | ⟨⟨error, rfl⟩, rfl⟩)
    · have hrun : (ask call next).run Cell.store cell = (next answer).run Cell.store after := by
        simp only [run_ask, Cell.store, hans]
      rw [hrun]
      by_cases hread : call.isRead
      · -- a read leaves the cell alone, so the rest of the job starts from the same value
        obtain rfl : after = cell := by rw [← Cell.answer_read hread cell, hans]
        cases answer with
        | ok value =>
          rw [if_pos hread] at hgo
          exact ih (.ok value) (hgo value) _
        | error error =>
          obtain ⟨failure, hfailure⟩ := hfail error
          rw [hfailure]
          exact ⟨fun _ _ => rfl, fun result hok => by cases hok⟩
      · -- the call that changes something is the last one
        obtain ⟨value, hvalue⟩ := Cell.answer_write (by simpa using hread) cell
        obtain rfl : answer = .ok value := by rw [← hvalue, hans]
        rw [if_neg hread] at hgo
        obtain ⟨result, hresult⟩ := hgo value
        rw [hresult]
        refine ⟨fun error herror => ?_, fun same hsame => ?_⟩
        · cases herror
        · rw [← hsame]; rfl
    · obtain ⟨failure, hfailure⟩ := hfail error
      rw [hfailure]
      exact ⟨fun _ _ => rfl, fun result hok => by cases hok⟩

end ChunkedArray
