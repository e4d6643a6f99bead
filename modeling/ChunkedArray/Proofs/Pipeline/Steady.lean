import ChunkedArray.Proofs.Pipeline.Moments
import ChunkedArray.Proofs.Pipeline.Sequence
import ChunkedArray.Proofs.Store.Backend

/-!
# ChunkedArray.Proofs.Pipeline.Steady

Calls whose answers do not depend on each other.

A store is steady under some calls (`Store.Steady`) if each of them is answered as in the
state at the start, however many of them have been made since. A job that makes no other
calls comes to one outcome then (`Job.frozen`), whatever is done at the same time. So the
jobs of a batch come to the outcomes that they have one after another
(`Store.Steady.dispatch_ok_iff`), even several jobs on one key.
-/

namespace ChunkedArray

variable {α σ : Type} {rules : Rules} {store : Store σ} {may : StoreCall → Prop}
  {start state : σ} {jobs : List (Job α)}

namespace Store

/-- The state is left by some of the calls that may be made. -/
def Leaves (store : Store σ) (may : StoreCall → Prop) (start state : σ) : Prop :=
  ∃ calls, (∀ call ∈ calls, may call) ∧ store.after calls start = state

/-- Each call that may be made is answered as in this state, whichever of them have been
made since. -/
def Steady (store : Store σ) (may : StoreCall → Prop) (start : σ) : Prop :=
  ∀ state, store.Leaves may start state → ∀ call, may call →
    (store.answer call state).1 = (store.answer call start).1

theorem leaves_start (store : Store σ) (may : StoreCall → Prop) (start : σ) :
    store.Leaves may start start :=
  ⟨[], by simp, rfl⟩

theorem leaves_preserved (store : Store σ) (may : StoreCall → Prop) (start : σ) :
    store.Preserves may (store.Leaves may start) := by
  intro call state hmay hleft
  obtain ⟨calls, hcalls, rfl⟩ := hleft
  refine ⟨calls ++ [call], ?_, by simp [after]⟩
  intro other hother
  rcases List.mem_append.mp hother with hold | hnew
  · exact hcalls other hold
  · exact List.mem_singleton.mp hnew ▸ hmay

/-- What no call that may be made breaks holds of the states that such calls leave. -/
theorem Leaves.holds {holds : σ → Prop} (hleft : store.Leaves may start state)
    (h : store.Preserves may holds) (hstart : holds start) : holds state := by
  obtain ⟨calls, hcalls, rfl⟩ := hleft
  induction calls generalizing start with
  | nil => exact hstart
  | cons call calls ih =>
    have hcall := h call start (hcalls call (by simp)) hstart
    exact ih hcall fun other hother => hcalls other (by simp [hother])

end Store

/-- The outcome of a job all of whose calls are answered as in one state. -/
def Job.frozen (store : Store σ) (start : σ) : Job α → Outcome α
  | done outcome => outcome
  | ask call next => (next (store.answer call start).1).frozen store start

/-- At the place of the slot is a job that comes to the same outcome as what is left of it. -/
def Slot.KeepsTo (store : Store σ) (start : σ) (jobs : List (Job α)) (place : Nat) :
    Slot α → Prop
  | waiting job | working job =>
    ∃ first, jobs[place]? = some first ∧ first.frozen store start = job.frozen store start
  | finished | abandoned => True

/-- The arrivals are the outcomes of their jobs, and what is left of the others comes to
theirs. -/
structure Crew.KeepsTo (store : Store σ) (start : σ) (jobs : List (Job α)) (crew : Crew α) :
    Prop where
  slots : ∀ (place : Nat) slot, crew.slots[place]? = some slot →
    slot.KeepsTo store start jobs place
  arrivals : ∀ place outcome, ⟨place, outcome⟩ ∈ crew.arrivals →
    ∃ first, jobs[place]? = some first ∧ first.frozen store start = outcome

namespace Crew.KeepsTo

variable {crew : Crew α} {place : Nat} {slot : Slot α}

theorem setSlot (h : crew.KeepsTo store start jobs)
    (hslot : slot.KeepsTo store start jobs place) :
    (crew.setSlot place slot).KeepsTo store start jobs where
  slots other found hfound := by
    by_cases heq : other = place
    · subst heq
      have hlt := (List.getElem?_eq_some_iff.mp hfound).1
      rw [setSlot_length] at hlt
      rw [setSlot_own (List.getElem?_eq_getElem hlt), Option.some.injEq] at hfound
      exact hfound ▸ hslot
    · rw [setSlot_other crew heq] at hfound
      exact h.slots other found hfound
  arrivals := h.arrivals

theorem arrive {outcome : Outcome α} (h : crew.KeepsTo store start jobs)
    (hjob : ∃ first, jobs[place]? = some first ∧ first.frozen store start = outcome) :
    (crew.arrive place outcome).KeepsTo store start jobs where
  slots := by
    have hfinished : (.finished : Slot α).KeepsTo store start jobs place := True.intro
    exact (h.setSlot hfinished).slots
  arrivals other found hfound := by
    rw [arrive_arrivals] at hfound
    rcases List.mem_append.mp hfound with hold | hnew
    · exact h.arrivals other found hold
    · obtain ⟨rfl, rfl⟩ := Arrival.mk.inj (List.mem_singleton.mp hnew)
      exact hjob

end Crew.KeepsTo

namespace Store.Steady

/-- Run alone at any time, a job comes to its one outcome. -/
theorem run (h : store.Steady may start) {job : Job α} (hjob : job.CallsOnly may)
    (hleft : store.Leaves may start state) :
    (job.run store state).1 = job.frozen store start := by
  induction job generalizing state with
  | done outcome => rfl
  | ask call next ih =>
    have hafter := store.leaves_preserved may start call state hjob.1 hleft
    rw [Job.run_ask, Job.frozen, h state hleft call hjob.1]
    exact ih _ (hjob.2 _) hafter

/-- So do jobs that are run one after another. -/
theorem runAll (h : store.Steady may start) (hjobs : ∀ job ∈ jobs, job.CallsOnly may)
    (hleft : store.Leaves may start state) :
    (Job.runAll store jobs state).1 = jobs.map (Job.frozen store start) := by
  induction jobs generalizing state with
  | nil => rfl
  | cons job jobs ih =>
    have hjob := hjobs job (by simp)
    have hafter := (store.leaves_preserved may start).run hjob hleft
    rw [Job.runAll_cons, List.map_cons, h.run hjob hleft,
      ih (fun other hother => hjobs other (by simp [hother])) hafter]

/-- A call at any time is answered as at the start, so a step of a crew keeps to the outcomes
of its jobs. -/
theorem step (h : store.Steady may start) {crew crew' : Crew α} {state state' : σ}
    (hcrew : ∀ slot ∈ crew.slots, slot.CallsOnly may) (hleft : store.Leaves may start state)
    (hkeeps : crew.KeepsTo store start jobs)
    (hstep : Crew.Step rules store (crew, state) (crew', state')) :
    crew'.KeepsTo store start jobs := by
  cases hstep with
  | start hslot =>
    have hown := hkeeps.slots _ _ hslot
    exact hkeeps.setSlot hown
  | @call _ _ place call next hslot =>
    obtain ⟨hmay, -⟩ : may call ∧ ∀ answer, (next answer).CallsOnly may :=
      hcrew _ (List.mem_of_getElem? hslot)
    obtain ⟨first, hfirst, hfrozen⟩ := hkeeps.slots _ _ hslot
    refine hkeeps.setSlot ⟨first, hfirst, ?_⟩
    rw [hfrozen, Job.frozen, h state hleft call hmay]
  | arrive hslot => exact hkeeps.arrive (hkeeps.slots _ _ hslot)
  | giveUp hslot hmay => exact hkeeps.setSlot True.intro

/-- Jobs at work at the same time arrive with their outcomes. -/
theorem arrived (h : store.Steady may start) (hjobs : ∀ job ∈ jobs, job.CallsOnly may)
    {schedule : Schedule} {place : Nat} {outcome : Outcome α}
    (hmem : ⟨place, outcome⟩ ∈ (Crew.work rules store schedule jobs start).1.arrivals) :
    ∃ job, jobs[place]? = some job ∧ job.frozen store start = outcome := by
  have hstart : ((∀ slot ∈ (Crew.ofJobs jobs).slots, slot.CallsOnly may) ∧
      store.Leaves may start start) ∧ (Crew.ofJobs jobs).KeepsTo store start jobs := by
    refine ⟨⟨?_, store.leaves_start may start⟩, ?_, by simp [Crew.ofJobs]⟩
    · intro slot hslot
      obtain ⟨job, hjob, rfl⟩ := List.mem_map.mp hslot
      exact hjobs job hjob
    · intro place slot hslot
      rw [Crew.ofJobs, List.getElem?_map] at hslot
      obtain ⟨job, hjob, rfl⟩ := Option.map_eq_some_iff.mp hslot
      exact ⟨job, hjob, rfl⟩
  have hend : (Crew.work rules store schedule jobs start).1.KeepsTo store start jobs :=
    (Crew.finish_induction (motive := fun crew state =>
      ((∀ slot ∈ crew.slots, slot.CallsOnly may) ∧ store.Leaves may start state) ∧
        crew.KeepsTo store start jobs) hstart
      (fun hcrew hstep => ⟨(store.leaves_preserved may start).step hcrew.1 hstep,
        h.step hcrew.1.1 hcrew.1.2 hcrew.2 hstep⟩) schedule).2
  exact hend.arrivals place outcome hmem

/-- **The batch succeeds with the results that its jobs have one after another**, and only
with them. -/
theorem dispatch_ok_iff (h : store.Steady may start) (hjobs : ∀ job ∈ jobs, job.CallsOnly may)
    (schedule : Schedule) (values : List α) :
    (dispatch rules store schedule jobs start).1 = .ok values ↔
      (Job.runAll store jobs start).1 = values.map .ok := by
  rw [h.runAll hjobs (store.leaves_start may start)]
  rcases dispatch_cases rules store schedule jobs start with
    ⟨error, place, herror, hmem⟩ | ⟨results, hok, hlength, hresults⟩
  · -- the job that failed has no other outcome
    obtain ⟨job, hjob, houtcome⟩ := h.arrived hjobs hmem
    rw [herror]
    refine iff_of_false (by simp) ?_
    intro hall
    have hvalue : (jobs.map (Job.frozen store start))[place]? = some (.error error) := by
      rw [List.getElem?_map, hjob, Option.map_some, houtcome]
    rw [hall, List.getElem?_map] at hvalue
    obtain ⟨value, -, hvalue⟩ := Option.map_eq_some_iff.mp hvalue
    cases hvalue
  · have hall : jobs.map (Job.frozen store start) = results.map .ok := by
      refine List.ext_getElem (by simp [hlength]) ?_
      intro place hplace hplace'
      rw [List.length_map] at hplace'
      obtain ⟨job, hjob, houtcome⟩ := h.arrived hjobs (hresults place hplace')
      obtain ⟨hlt, rfl⟩ := List.getElem?_eq_some_iff.mp hjob
      rw [List.getElem_map, List.getElem_map, houtcome]
    rw [hok, hall, List.map_inj_right fun _ _ => Except.ok.inj]
    exact ⟨Except.ok.inj, congrArg Except.ok⟩

end Store.Steady

/-! ### Steady stores -/

/-- Reading is steady on a table: nothing but the log changes. -/
theorem Table.steady (refuses : Verb → String → Bool) (hread : ∀ call, may call → call.isRead)
    (table : Table) : (Table.store refuses).Steady may table := by
  have hkept : (Table.store refuses).Preserves may (fun state => state.values = table.values) := by
    intro call state hmay hvalues
    have hcall := hread call hmay
    cases call with
    | get key | getPartial key ranges => exact hvalues
    | set key value | erase key => cases hcall
  intro state hleft call hmay
  have hvalues := hleft.holds hkept rfl
  have hcall := hread call hmay
  cases call with
  | get key | getPartial key ranges => simp only [Table.store, Table.answer, hvalues]
  | set key value | erase key => cases hcall

/-- Reading is steady on a router if all keys open the same backend, or one is already
open. -/
theorem Router.steady {router : Router} {backend : Backend} (hread : ∀ call, may call → call.isRead)
    (hopened : ∀ call, may call → ∀ scheme path, Scheme.ofKey? call.key = some (scheme, path) →
      router.opened scheme path = backend) : Router.store.Steady may router := by
  have hsame : ∀ call, may call → ∀ state : Router,
      state = router ∨ state = { router with backend } →
      (state.answer call).1 = (router.answer call).1 ∧
        ((state.answer call).2 = router ∨ (state.answer call).2 = { router with backend }) := by
    intro call hmay state hstate
    cases hkey : Scheme.ofKey? call.key with
    | none =>
      rw [answer_unsupported hkey, answer_unsupported hkey]
      exact ⟨rfl, hstate⟩
    | some parts =>
      obtain ⟨scheme, path⟩ := parts
      have hrouter := hopened call hmay scheme path hkey
      -- the backend is open after the first key, and every key finds it
      have hroute : ∀ state : Router, state = router ∨ state = { router with backend } →
          state.route call.key =
            (target backend call.key scheme path, { router with backend }) := by
        intro state hstate
        rw [route_of_key state hkey]
        rcases hstate with rfl | rfl
        · rw [hrouter]
        · rw [opened_of_open]
          exact hrouter ▸ opened_ne_unopened router scheme path
      have hequal : state.answer call = router.answer call := by
        simp only [answer, hroute state hstate, hroute router (Or.inl rfl)]
      rw [hequal]
      refine ⟨rfl, Or.inr ?_⟩
      have hcall := hread call hmay
      simp only [answer, hroute router (Or.inl rfl)]
      cases target backend call.key scheme path with
      | error error => rfl
      | ok place =>
        cases call with
        | get key | getPartial key ranges => rfl
        | set key value | erase key => cases hcall
  intro state hleft call hmay
  have hstate := hleft.holds (fun call state hmay hstate => (hsame call hmay state hstate).2)
    (Or.inl rfl)
  exact (hsame call hmay state hstate).1

end ChunkedArray
