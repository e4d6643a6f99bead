import ChunkedArray.Error

/-!
# ChunkedArray.Store.Job

Work on stores as data. A `Job` is either done or waits for the answer to one
call of a store; a `Store` says how each call is answered and what state it
leaves. Running a job alone on a store (`Job.run`) makes its calls one after
another; because a job shows every call before it is made, the calls of several
jobs can also be taken in any other order.

Jobs are sequenced with `do`: the first failure ends a job.
-/

namespace ChunkedArray

/-- A call of a store. -/
inductive StoreCall
  /-- Asks for the value under a key. -/
  | get (key : String)
  /-- Asks for parts of the value under a key. -/
  | getPartial (key : String) (ranges : List ByteRange)
  /-- Puts a value under a key. -/
  | set (key : String) (value : Bytes)
  /-- Removes the value under a key, if there is one. -/
  | erase (key : String)
  deriving DecidableEq, Repr

namespace StoreCall

/-- The key that a call is about. -/
def key : StoreCall → String
  | get key | getPartial key _ | set key _ | erase key => key

/-- What a call is answered with. -/
abbrev Answer : StoreCall → Type
  | get _ => Option Bytes
  | getPartial .. => Option (List Bytes)
  | set .. | erase _ => Unit

end StoreCall

/-- Work that makes calls of a store and ends with a result. -/
inductive Job (α : Type) where
  | done (outcome : Outcome α)
  | ask (call : StoreCall) (next : Outcome call.Answer → Job α)

namespace Job

/-- The job that goes on with the result of another one. -/
def bind {α β : Type} : Job α → (α → Job β) → Job β
  | done (.ok value), next => next value
  | done (.error error), _ => done (.error error)
  | ask call answered, next => ask call fun answer => (answered answer).bind next

instance : Monad Job where
  pure value := done (.ok value)
  bind := bind

@[simp] theorem pure_eq {α : Type} (value : α) : (pure value : Job α) = done (.ok value) := rfl

@[simp] theorem bind_eq {α β : Type} (job : Job α) (next : α → Job β) :
    job >>= next = job.bind next := rfl

/-- The job that only ends. -/
def ofOutcome {α : Type} (outcome : Outcome α) : Job α := done outcome

/-- The job that makes one call. -/
def ofCall (call : StoreCall) : Job call.Answer := ask call done

/-- The job that fails. -/
def fail {α : Type} (error : AccessError) : Job α := done (.error error)

/-- The job with its failure seen as another one. -/
def mapError {α : Type} (change : AccessError → AccessError) : Job α → Job α
  | done outcome => done (outcome.mapError change)
  | ask call answered => ask call fun answer => (answered answer).mapError change

@[simp] theorem bind_done_ok {α β : Type} (value : α) (next : α → Job β) :
    bind (done (.ok value)) next = next value := rfl

@[simp] theorem bind_done_error {α β : Type} (error : AccessError) (next : α → Job β) :
    bind (done (.error error)) next = done (.error error) := rfl

@[simp] theorem bind_ask {α β : Type} (call : StoreCall)
    (answered : Outcome call.Answer → Job α) (next : α → Job β) :
    bind (ask call answered) next = ask call fun answer => (answered answer).bind next := rfl

end Job

/-- How the calls of a store are answered, and what state each of them leaves. -/
structure Store (σ : Type) where
  answer : (call : StoreCall) → σ → Outcome call.Answer × σ

/-- The job run alone on a store in some state. -/
def Job.run {α σ : Type} (store : Store σ) : Job α → σ → Outcome α × σ
  | done outcome, state => (outcome, state)
  | ask call answered, state =>
    let (answer, state) := store.answer call state
    (answered answer).run store state

namespace Job

variable {α β σ : Type}

@[simp] theorem run_ask (store : Store σ) (call : StoreCall)
    (answered : Outcome call.Answer → Job α) (state : σ) :
    (ask call answered).run store state =
      (answered (store.answer call state).1).run store (store.answer call state).2 := rfl

@[simp] theorem run_ofOutcome (store : Store σ) (outcome : Outcome α) (state : σ) :
    (ofOutcome outcome).run store state = (outcome, state) := rfl

@[simp] theorem run_fail (store : Store σ) (error : AccessError) (state : σ) :
    (fail error : Job α).run store state = (.error error, state) := rfl

@[simp] theorem run_ofCall (store : Store σ) (call : StoreCall) (state : σ) :
    (ofCall call).run store state = store.answer call state := rfl

@[simp] theorem run_done (store : Store σ) (outcome : Outcome α) (state : σ) :
    (done outcome).run store state = (outcome, state) := rfl

theorem run_bind (store : Store σ) (job : Job α) (next : α → Job β) (state : σ) :
    (job.bind next).run store state =
      match job.run store state with
      | (.ok value, state) => (next value).run store state
      | (.error error, state) => (.error error, state) := by
  induction job generalizing state with
  | done outcome => cases outcome <;> rfl
  | ask call answered ih => exact ih _ _

theorem run_mapError (store : Store σ) (change : AccessError → AccessError) (job : Job α)
    (state : σ) :
    (job.mapError change).run store state =
      ((job.run store state).1.mapError change, (job.run store state).2) := by
  induction job generalizing state with
  | done outcome => rfl
  | ask call answered ih => exact ih _ _

end Job

end ChunkedArray
