import ChunkedArray.Pipeline.Dispatch
import ChunkedArray.Proofs.Store.Job
import Mathlib.Logic.Relation

/-!
# ChunkedArray.Proofs.Pipeline.Crew

What holds of a crew however its moves are ordered.

A schedule with its settling of the rest is one way through the steps that a crew can
take (`Crew.Step`, `finish_steps`), so what every step preserves holds in the end
(`finish_induction`). `Crew.Tracks` is such an invariant about the crew alone: every job
that has finished has exactly one arrival, and jobs are given up only where that is
allowed.
-/

namespace ChunkedArray

variable {α σ γ : Type} {rules : Rules} {store : Store σ}

/-- Has the job ended in one way or another? -/
def Slot.isOver : Slot α → Bool
  | finished | abandoned => true
  | waiting _ | working _ => false

namespace Crew

/-! ### Slots -/

@[simp] theorem setSlot_arrivals (crew : Crew α) (place : Nat) (slot : Slot α) :
    (crew.setSlot place slot).arrivals = crew.arrivals := rfl

@[simp] theorem arrive_arrivals (crew : Crew α) (place : Nat) (outcome : Outcome α) :
    (crew.arrive place outcome).arrivals = crew.arrivals ++ [⟨place, outcome⟩] := rfl

@[simp] theorem setSlot_length (crew : Crew α) (place : Nat) (slot : Slot α) :
    (crew.setSlot place slot).slots.length = crew.slots.length := by
  simp [setSlot]

@[simp] theorem arrive_length (crew : Crew α) (place : Nat) (outcome : Outcome α) :
    (crew.arrive place outcome).slots.length = crew.slots.length := by
  simp [arrive]

theorem setSlot_own {crew : Crew α} {place : Nat} {old : Slot α}
    (h : crew.slots[place]? = some old) (slot : Slot α) :
    (crew.setSlot place slot).slots[place]? = some slot :=
  List.getElem?_set_self (List.getElem?_eq_some_iff.mp h).1

theorem setSlot_other (crew : Crew α) {place other : Nat} (h : other ≠ place) (slot : Slot α) :
    (crew.setSlot place slot).slots[other]? = crew.slots[other]? :=
  List.getElem?_set_ne (Ne.symm h)

theorem arrive_own {crew : Crew α} {place : Nat} {old : Slot α}
    (h : crew.slots[place]? = some old) (outcome : Outcome α) :
    (crew.arrive place outcome).slots[place]? = some .finished :=
  setSlot_own h .finished

theorem arrive_other (crew : Crew α) {place other : Nat} (h : other ≠ place)
    (outcome : Outcome α) :
    (crew.arrive place outcome).slots[other]? = crew.slots[other]? :=
  setSlot_other crew h .finished

theorem arrive_setSlot (crew : Crew α) (place : Nat) (slot : Slot α) (outcome : Outcome α) :
    (crew.setSlot place slot).arrive place outcome = crew.arrive place outcome := by
  simp [arrive, setSlot]

/-! ### Steps -/

/-- One step of a crew with its store. How many jobs work at a time plays no part, so
a crew can take more steps than its moves let it. -/
inductive Step (rules : Rules) (store : Store σ) : Crew α × σ → Crew α × σ → Prop
  /-- A job that waits begins to work. -/
  | start {crew : Crew α} {state : σ} {place : Nat} {job : Job α}
      (hslot : crew.slots[place]? = some (.waiting job)) :
      Step rules store (crew, state) (crew.setSlot place (.working job), state)
  /-- A job makes its next call. -/
  | call {crew : Crew α} {state : σ} {place : Nat} {call : StoreCall}
      {next : Outcome call.Answer → Job α}
      (hslot : crew.slots[place]? = some (.working (.ask call next))) :
      Step rules store (crew, state)
        (crew.setSlot place (.working (next (store.answer call state).1)),
          (store.answer call state).2)
  /-- The outcome of a job arrives. -/
  | arrive {crew : Crew α} {state : σ} {place : Nat} {outcome : Outcome α}
      (hslot : crew.slots[place]? = some (.working (.done outcome))) :
      Step rules store (crew, state) (crew.arrive place outcome, state)
  /-- A job that waits is given up. -/
  | giveUp {crew : Crew α} {state : σ} {place : Nat} {job : Job α}
      (hslot : crew.slots[place]? = some (.waiting job)) (hmay : crew.mayGiveUp rules) :
      Step rules store (crew, state) (crew.setSlot place .abandoned, state)

/-- Any number of steps. -/
abbrev Steps (rules : Rules) (store : Store σ) : Crew α × σ → Crew α × σ → Prop :=
  Relation.ReflTransGen (Step rules store)

theorem move_steps (crew : Crew α) (state : σ) (next : Move) :
    Steps rules store (crew, state) (crew.move rules store state next) := by
  cases next with
  | start place =>
    simp only [move]
    split
    · rename_i job hslot
      split
      · exact .single (.start hslot)
      · exact .refl
    · exact .refl
  | proceed place =>
    simp only [move]
    split
    · rename_i outcome hslot
      exact .single (.arrive hslot)
    · rename_i call next hslot
      exact .single (.call hslot)
    · exact .refl
  | giveUp place =>
    simp only [move]
    split
    · rename_i job hslot
      split
      · rename_i hmay
        exact .single (.giveUp hslot hmay)
      · exact .refl
    · exact .refl

theorem follow_steps (schedule : Schedule) (crew : Crew α) (state : σ) :
    Steps rules store (crew, state) (crew.follow rules store schedule state) := by
  induction schedule generalizing crew state with
  | nil => exact .refl
  | cons next schedule ih => exact (move_steps crew state next).trans (ih _ _)

/-- A job at work can be run to its end. -/
theorem work_steps {crew : Crew α} {place : Nat} {job : Job α}
    (hslot : crew.slots[place]? = some (.working job)) (state : σ) :
    Steps rules store (crew, state)
      (crew.arrive place (job.run store state).1, (job.run store state).2) := by
  -- on what is left of the job: each call is one step, the outcome is the last one
  induction job generalizing crew state with
  | done outcome => exact .single (.arrive hslot)
  | ask call next ih =>
    have hrest := ih (store.answer call state).1
      (setSlot_own hslot (.working (next (store.answer call state).1)))
      (store.answer call state).2
    rw [arrive_setSlot] at hrest
    exact .head (.call hslot) hrest

theorem settle_steps (crew : Crew α) (state : σ) (place : Nat) :
    Steps rules store (crew, state) (crew.settle rules store state place) := by
  unfold settle
  split
  · rename_i job hslot
    split
    · rename_i hmay
      exact .single (.giveUp hslot hmay)
    · have hwork : Steps rules store _ _ := work_steps (setSlot_own hslot (.working job)) state
      rw [arrive_setSlot] at hwork
      exact .head (.start hslot) hwork
  · rename_i job hslot
    exact work_steps hslot state
  · exact .refl

theorem settleAll_steps (places : List Nat) (crew : Crew α) (state : σ) :
    Steps rules store (crew, state) (crew.settleAll rules store places state) := by
  induction places generalizing crew state with
  | nil => exact .refl
  | cons place places ih => exact (settle_steps crew state place).trans (ih _ _)

/-- Whatever the schedule is, the crew comes to its end by steps. -/
theorem finish_steps (schedule : Schedule) (crew : Crew α) (state : σ) :
    Steps rules store (crew, state) (crew.finish rules store schedule state) :=
  (follow_steps schedule crew state).trans (settleAll_steps _ _ _)

/-- What holds at the beginning and is kept by every step holds after any number of
steps. -/
theorem steps_induction {motive : Crew α → σ → Prop} {crew : Crew α} {state : σ}
    {last : Crew α × σ} (hstart : motive crew state)
    (hstep : ∀ {crew crew' : Crew α} {state state' : σ}, motive crew state →
      Step rules store (crew, state) (crew', state') → motive crew' state')
    (hsteps : Steps rules store (crew, state) last) : motive last.1 last.2 := by
  induction hsteps with
  | refl => exact hstart
  | tail _ hlast ih => exact hstep ih hlast

/-- What holds at the beginning and is kept by every step holds at the end. -/
theorem finish_induction {motive : Crew α → σ → Prop} {crew : Crew α} {state : σ}
    (hstart : motive crew state)
    (hstep : ∀ {crew crew' : Crew α} {state state' : σ}, motive crew state →
      Step rules store (crew, state) (crew', state') → motive crew' state')
    (schedule : Schedule) :
    motive (crew.finish rules store schedule state).1
      (crew.finish rules store schedule state).2 :=
  steps_induction hstart hstep (finish_steps schedule crew state)

/-! ### Every job ends -/

theorem settle_other (crew : Crew α) (state : σ) {place other : Nat} (h : other ≠ place) :
    (crew.settle rules store state place).1.slots[other]? = crew.slots[other]? := by
  unfold settle
  split
  · split
    · exact setSlot_other crew h _
    · exact arrive_other crew h _
  · exact arrive_other crew h _
  · rfl

theorem settle_over (crew : Crew α) (state : σ) (place : Nat) {slot : Slot α}
    (hslot : (crew.settle rules store state place).1.slots[place]? = some slot) : slot.isOver := by
  unfold settle at hslot
  split at hslot
  · rename_i job hjob
    split at hslot
    · rw [setSlot_own hjob] at hslot
      cases hslot; rfl
    · rw [arrive_own hjob] at hslot
      cases hslot; rfl
  · rename_i job hjob
    rw [arrive_own hjob] at hslot
    cases hslot; rfl
  · -- the slot was neither waiting nor working
    rename_i hwaiting hworking
    cases slot with
    | waiting job => exact absurd hslot (hwaiting job)
    | working job => exact absurd hslot (hworking job)
    | finished | abandoned => rfl

theorem settleAll_over (places : List Nat) (crew : Crew α) (state : σ) {place : Nat}
    {slot : Slot α} (hplace : place ∉ places → ∀ slot, crew.slots[place]? = some slot → slot.isOver)
    (hslot : (crew.settleAll rules store places state).1.slots[place]? = some slot) :
    slot.isOver := by
  -- a place that was settled stays so while the other ones are settled
  induction places generalizing crew state with
  | nil => exact hplace (by simp) slot hslot
  | cons first places ih =>
    refine ih (crew.settle rules store state first).1 _ ?_ hslot
    intro hnot slot hsettled
    by_cases heq : place = first
    · subst heq
      exact settle_over crew state place hsettled
    · rw [settle_other crew state heq] at hsettled
      exact hplace (by simp [heq, hnot]) slot hsettled

/-- Once a crew has finished, every job has ended. -/
theorem finish_over (schedule : Schedule) (crew : Crew α) (state : σ) {place : Nat}
    {slot : Slot α}
    (hslot : (crew.finish rules store schedule state).1.slots[place]? = some slot) :
    slot.isOver := by
  refine settleAll_over _ _ _ ?_ hslot
  intro hnot slot hfollowed
  have hlt := (List.getElem?_eq_some_iff.mp hfollowed).1
  exact absurd (List.mem_range.mpr hlt) hnot

/-! ### Slots and arrivals agree -/

/-- The slots and the arrivals of a crew that began with `count` jobs tell the same
story. -/
structure Tracks (rules : Rules) (count : Nat) (crew : Crew α) : Prop where
  length : crew.slots.length = count
  nodup : (crew.arrivals.map Arrival.place).Nodup
  finished : ∀ place : Nat, crew.slots[place]? = some .finished ↔
    ∃ outcome, ⟨place, outcome⟩ ∈ crew.arrivals
  abandoned : ∀ place : Nat, crew.slots[place]? = some .abandoned → crew.mayGiveUp rules

theorem tracks_ofJobs (rules : Rules) (jobs : List (Job α)) :
    (ofJobs jobs).Tracks rules jobs.length where
  length := by simp [ofJobs]
  nodup := by simp [ofJobs]
  finished place := by simp [ofJobs]
  abandoned place h := by simp [ofJobs] at h

/-- A slot that is neither finished nor abandoned, before or after, can be filled
without touching the books. -/
theorem Tracks.setSlot {count : Nat} {crew : Crew α} (h : crew.Tracks rules count)
    {place : Nat} {old slot : Slot α} (hslot : crew.slots[place]? = some old)
    (hold : old.isOver = false) (hnew : slot ≠ .finished)
    (hmay : slot = .abandoned → crew.mayGiveUp rules) :
    (crew.setSlot place slot).Tracks rules count where
  length := by rw [setSlot_length, h.length]
  nodup := h.nodup
  finished other := by
    rw [setSlot_arrivals, ← h.finished other]
    by_cases heq : other = place
    · subst heq
      rw [setSlot_own hslot, hslot, Option.some.injEq, Option.some.injEq]
      refine iff_of_false hnew ?_
      intro hfinished
      rw [hfinished] at hold
      cases hold
    · rw [setSlot_other crew heq]
  abandoned other hother := by
    by_cases heq : other = place
    · subst heq
      rw [setSlot_own hslot, Option.some.injEq] at hother
      exact hmay hother
    · rw [setSlot_other crew heq] at hother
      exact h.abandoned other hother

theorem not_mayGiveUp (hdrain : rules.policy = .drain) (crew : Crew α) :
    ¬ crew.mayGiveUp rules := by
  simp [mayGiveUp, hdrain]

theorem mayGiveUp_arrive {crew : Crew α} (h : crew.mayGiveUp rules) (place : Nat)
    (outcome : Outcome α) : (crew.arrive place outcome).mayGiveUp rules := by
  simp only [mayGiveUp, hasFailed, arrive_arrivals, List.any_append, Bool.and_eq_true,
    Bool.or_eq_true] at h ⊢
  exact ⟨h.1, Or.inl h.2⟩

theorem Tracks.arrive {count : Nat} {crew : Crew α} (h : crew.Tracks rules count)
    {place : Nat} {old : Slot α} (hslot : crew.slots[place]? = some old)
    (hold : old.isOver = false) (outcome : Outcome α) :
    (crew.arrive place outcome).Tracks rules count where
  length := by rw [arrive_length, h.length]
  nodup := by
    -- the job at work has not arrived before
    have hnew : place ∉ crew.arrivals.map Arrival.place := by
      intro hmem
      obtain ⟨⟨place, earlier⟩, harrived, rfl⟩ := List.mem_map.mp hmem
      have hfinished := (h.finished place).mpr ⟨earlier, harrived⟩
      rw [hslot, Option.some.injEq] at hfinished
      rw [hfinished] at hold
      cases hold
    rw [arrive_arrivals, List.map_append, List.map_singleton, List.nodup_append]
    refine ⟨h.nodup, List.pairwise_singleton _ _, ?_⟩
    intro a ha b hb heq
    rw [List.mem_singleton] at hb
    rw [heq, hb] at ha
    exact hnew ha
  finished other := by
    simp only [arrive_arrivals, List.mem_append, List.mem_singleton, Arrival.mk.injEq]
    by_cases heq : other = place
    · subst heq
      rw [arrive_own hslot]
      exact iff_of_true rfl ⟨outcome, Or.inr ⟨rfl, rfl⟩⟩
    · simp only [arrive_other crew heq, heq, false_and, or_false]
      exact h.finished other
  abandoned other hother := by
    by_cases heq : other = place
    · subst heq
      rw [arrive_own hslot] at hother
      cases hother
    · rw [arrive_other crew heq] at hother
      exact mayGiveUp_arrive (h.abandoned other hother) place outcome

theorem Tracks.step {count : Nat} {crew crew' : Crew α} {state state' : σ}
    (h : crew.Tracks rules count) (hstep : Step rules store (crew, state) (crew', state')) :
    crew'.Tracks rules count := by
  cases hstep with
  | start hslot => exact h.setSlot hslot rfl (by simp) (by simp)
  | call hslot => exact h.setSlot hslot rfl (by simp) (by simp)
  | arrive hslot => exact h.arrive hslot rfl _
  | giveUp hslot hmay => exact h.setSlot hslot rfl (by simp) (fun _ => hmay)

theorem Tracks.steps {count : Nat} {crew : Crew α} {state : σ} {last : Crew α × σ}
    (h : crew.Tracks rules count) (hsteps : Steps rules store (crew, state) last) :
    last.1.Tracks rules count :=
  steps_induction (motive := fun crew _ => crew.Tracks rules count) h
    (fun h hstep => h.step hstep) hsteps

/-- Where nothing may be given up, a job that is over has finished. -/
theorem Tracks.finished_of_over {count : Nat} {crew : Crew α} (h : crew.Tracks rules count)
    (hmay : ¬ crew.mayGiveUp rules) {slot : Slot α} (hslot : slot ∈ crew.slots)
    (hover : slot.isOver) : slot = .finished := by
  cases slot with
  | waiting job => cases hover
  | working job => cases hover
  | finished => rfl
  | abandoned =>
    obtain ⟨place, hplace⟩ := List.mem_iff_getElem?.mp hslot
    exact absurd (h.abandoned place hplace) hmay

/-- The books of a crew on its way. -/
theorem follow_tracks (rules : Rules) (store : Store σ) (schedule : Schedule)
    (jobs : List (Job α)) (state : σ) :
    ((ofJobs jobs).follow rules store schedule state).1.Tracks rules jobs.length :=
  (tracks_ofJobs rules jobs).steps (follow_steps schedule (ofJobs jobs) state)

/-- The books of a crew at its end. -/
theorem finish_tracks (schedule : Schedule) (jobs : List (Job α)) (state : σ) :
    ((ofJobs jobs).finish rules store schedule state).1.Tracks rules jobs.length :=
  (tracks_ofJobs rules jobs).steps (finish_steps schedule (ofJobs jobs) state)

end Crew

end ChunkedArray
