import ChunkedArray.Config.Basic
import ChunkedArray.Store.Job

/-!
# ChunkedArray.Pipeline.Dispatch

Many jobs on one store at a time. Each job waits, then works, making its calls
one after another, and in the end its outcome arrives. Between the calls of one
job any calls of other jobs may be made: a `Schedule` lists the moves in their
order, and once it is exhausted what is left of the jobs is run one after another.
No more jobs work at a time than there are workers.

What becomes of jobs that still wait when another one has failed is a matter of
policy: they may be given up, or all of them are run to their end first. Either
way the error that is reported is the one that arrived first; without any, the
results are put back into the order of the jobs.
-/

namespace ChunkedArray

/-- What happens to waiting jobs after a failure. -/
inductive Policy
  /-- They may be given up. -/
  | abandon
  /-- They are run to their end. -/
  | drain
  deriving DecidableEq, Repr

/-- One move of the job at a place. -/
inductive Move
  /-- It begins to work. -/
  | start (place : Nat)
  /-- It makes its next call, or its outcome arrives. -/
  | proceed (place : Nat)
  /-- It is given up. -/
  | giveUp (place : Nat)
  deriving DecidableEq, Repr

/-- The order of the moves of some jobs. -/
abbrev Schedule := List Move

/-- The state of one job. -/
inductive Slot (α : Type) where
  | waiting (job : Job α)
  | working (job : Job α)
  | finished
  | abandoned

/-- The outcome of the job at a place. -/
structure Arrival (α : Type) where
  place : Nat
  outcome : Outcome α

/-- Some jobs at work, and the outcomes that have arrived, the latest last. -/
structure Crew (α : Type) where
  slots : List (Slot α)
  arrivals : List (Arrival α) := []

/-- The rules that a crew works by. -/
structure Rules where
  policy : Policy
  /-- The most jobs that work at a time. -/
  capacity : Nat
  deriving Repr

/-- Does the job work? -/
def Slot.isWorking {α : Type} : Slot α → Bool
  | working _ => true
  | _ => false

/-- The error of an outcome that is one. -/
def Arrival.error? {α : Type} (arrival : Arrival α) : Option AccessError :=
  match arrival.outcome with
  | .ok _ => none
  | .error error => some error

namespace Crew

variable {α σ : Type}

/-- A crew whose jobs all wait. -/
def ofJobs (jobs : List (Job α)) : Crew α := { slots := jobs.map Slot.waiting }

/-- The number of jobs that work. -/
def busy (crew : Crew α) : Nat := crew.slots.countP Slot.isWorking

/-- Has a job failed? -/
def hasFailed (crew : Crew α) : Bool := crew.arrivals.any fun arrival => arrival.error?.isSome

/-- May waiting jobs be given up? -/
def mayGiveUp (rules : Rules) (crew : Crew α) : Bool :=
  rules.policy = .abandon && crew.hasFailed

/-- The crew with one job in another state. -/
def setSlot (crew : Crew α) (place : Nat) (slot : Slot α) : Crew α :=
  { crew with slots := crew.slots.set place slot }

/-- The crew with the outcome of one job arrived. -/
def arrive (crew : Crew α) (place : Nat) (outcome : Outcome α) : Crew α :=
  { slots := crew.slots.set place .finished, arrivals := crew.arrivals ++ [⟨place, outcome⟩] }

/-- The crew and its store after a move. A move that is not possible changes
nothing. -/
def move (rules : Rules) (store : Store σ) (crew : Crew α) (state : σ) :
    Move → Crew α × σ
  | .start place =>
    match crew.slots[place]? with
    | some (.waiting job) =>
      (if crew.busy < rules.capacity then crew.setSlot place (.working job) else crew, state)
    | _ => (crew, state)
  | .proceed place =>
    match crew.slots[place]? with
    | some (.working (.done outcome)) => (crew.arrive place outcome, state)
    | some (.working (.ask call next)) =>
      let (answer, state) := store.answer call state
      (crew.setSlot place (.working (next answer)), state)
    | _ => (crew, state)
  | .giveUp place =>
    match crew.slots[place]? with
    | some (.waiting _) =>
      (if crew.mayGiveUp rules then crew.setSlot place .abandoned else crew, state)
    | _ => (crew, state)

/-- The crew and its store after the moves of a schedule. -/
def follow (rules : Rules) (store : Store σ) : Schedule → Crew α → σ → Crew α × σ
  | [], crew, state => (crew, state)
  | next :: schedule, crew, state =>
    let (crew, state) := crew.move rules store state next
    follow rules store schedule crew state

/-- The crew and its store after the rest of the job at a place. -/
def settle (rules : Rules) (store : Store σ) (crew : Crew α) (state : σ) (place : Nat) :
    Crew α × σ :=
  match crew.slots[place]? with
  | some (.waiting job) =>
    if crew.mayGiveUp rules then (crew.setSlot place .abandoned, state)
    else
      let (outcome, state) := job.run store state
      (crew.arrive place outcome, state)
  | some (.working job) =>
    let (outcome, state) := job.run store state
    (crew.arrive place outcome, state)
  | _ => (crew, state)

/-- The crew and its store after the rest of the jobs at some places. -/
def settleAll (rules : Rules) (store : Store σ) : List Nat → Crew α → σ → Crew α × σ
  | [], crew, state => (crew, state)
  | place :: places, crew, state =>
    let (crew, state) := crew.settle rules store state place
    settleAll rules store places crew state

/-- The crew and its store after all jobs have ended: first by a schedule, then
one after another. -/
def finish (rules : Rules) (store : Store σ) (schedule : Schedule) (crew : Crew α)
    (state : σ) : Crew α × σ :=
  let (crew, state) := crew.follow rules store schedule state
  crew.settleAll rules store (List.range crew.slots.length) state

end Crew

/-! ### Collecting -/

variable {α σ : Type}

/-- The error that arrived first. -/
def firstError (arrivals : List (Arrival α)) : Option AccessError :=
  arrivals.findSome? Arrival.error?

/-- The results by the places of their jobs; nothing is at a place without one. -/
def byPlace (count : Nat) (arrivals : List (Arrival α)) : List (Option α) :=
  arrivals.foldl (fun slots arrival => match arrival.outcome with
    | .ok value => slots.set arrival.place (some value)
    | .error _ => slots) (List.replicate count none)

/-- The results of `count` jobs in the order of the jobs, or the error that
arrived first. -/
def collect (count : Nat) (arrivals : List (Arrival α)) : Outcome (List α) :=
  match firstError arrivals with
  | some error => .error error
  | none => .ok ((byPlace count arrivals).filterMap id)

/-- The results of some jobs on a store, and the state that they leave. -/
def dispatch (rules : Rules) (store : Store σ) (schedule : Schedule) (jobs : List (Job α))
    (state : σ) : Outcome (List α) × σ :=
  let (crew, state) := (Crew.ofJobs jobs).finish rules store schedule state
  (collect jobs.length crew.arrivals, state)

/-! ### Dispatchers -/

/-- A dispatcher with so many workers. -/
structure Dispatcher where
  policy : Policy
  workers : UInt64
  deriving DecidableEq, Repr

namespace Dispatcher

/-- The rules of a dispatcher; one that has no workers lets one job work. -/
def rules (dispatcher : Dispatcher) : Rules :=
  { policy := dispatcher.policy, capacity := max dispatcher.workers.toNat 1 }

/-- The dispatcher for a machine that runs `parallelism` threads. -/
def ofConfig (policy : Policy) (config : Config) (parallelism : UInt64) : Dispatcher :=
  ⟨policy, config.workerCount parallelism⟩

/-- A dispatcher whose callers wait for it, as a text. -/
def text (dispatcher : Dispatcher) : String :=
  let workers := dispatcher.workers.toNat
  s!"SyncDispatcher \x7b workers: {workers}, .. \x7d"

end Dispatcher

end ChunkedArray
