import ChunkedArray.Proofs.Pipeline.Collect

/-!
# ChunkedArray.Proofs.Pipeline.Progress

Moves that bring the jobs of a crew to their ends.

The bound on the jobs at work keeps no crew from its end. A job at work can always be
brought to its end, and if none is at work there is room for one that waits
(`Crew.exists_follow_over`). Nor does the bound rule out an order in which the jobs complete
(`Crew.exists_schedule`). A schedule that brings all jobs to their ends leaves nothing to be
run afterwards (`Crew.finish_eq_follow`).
-/

namespace ChunkedArray

variable {α σ : Type} {rules : Rules} {store : Store σ}

namespace Crew

/-! ### The end of one job -/

theorem follow_append (moves rest : Schedule) (crew : Crew α) (state : σ) :
    crew.follow rules store (moves ++ rest) state =
      (crew.follow rules store moves state).1.follow rules store rest
        (crew.follow rules store moves state).2 := by
  induction moves generalizing crew state with
  | nil => rfl
  | cons next moves ih => exact ih _ _

/-- A job at work can be brought to its end by its own moves. -/
theorem exists_follow_working (rules : Rules) (store : Store σ) {crew : Crew α} {place : Nat}
    {job : Job α} (hslot : crew.slots[place]? = some (.working job)) (state : σ) :
    ∃ moves, crew.follow rules store moves state =
      (crew.arrive place (job.run store state).1, (job.run store state).2) := by
  induction job generalizing crew state with
  | done outcome =>
    refine ⟨[.proceed place], ?_⟩
    simp only [follow, move, hslot, Job.run_done]
  | ask call next ih =>
    obtain ⟨moves, hmoves⟩ := ih (store.answer call state).1
      (setSlot_own hslot (.working (next (store.answer call state).1)))
      (store.answer call state).2
    rw [arrive_setSlot] at hmoves
    refine ⟨.proceed place :: moves, ?_⟩
    simp only [follow, move, hslot, Job.run_ask]
    exact hmoves

/-- A job that waits can be brought to its end if there is room for it. -/
theorem exists_follow_waiting (store : Store σ) {crew : Crew α} {place : Nat} {job : Job α}
    (hslot : crew.slots[place]? = some (.waiting job)) (hroom : crew.busy < rules.capacity)
    (state : σ) : ∃ moves, crew.follow rules store moves state =
      (crew.arrive place (job.run store state).1, (job.run store state).2) := by
  obtain ⟨moves, hmoves⟩ :=
    exists_follow_working rules store (setSlot_own hslot (.working job)) state
  rw [arrive_setSlot] at hmoves
  refine ⟨.start place :: moves, ?_⟩
  simp only [follow, move, hslot, if_pos hroom]
  exact hmoves

/-! ### The end of all jobs -/

/-- The number of jobs that are not over. -/
def remaining (crew : Crew α) : Nat := crew.slots.countP fun slot => !slot.isOver

theorem remaining_arrive {crew : Crew α} {place : Nat} {slot : Slot α}
    (hslot : crew.slots[place]? = some slot) (hover : slot.isOver = false)
    (outcome : Outcome α) : (crew.arrive place outcome).remaining < crew.remaining := by
  obtain ⟨hlt, rfl⟩ := List.getElem?_eq_some_iff.mp hslot
  have hpos : 0 < crew.remaining :=
    List.countP_pos_iff.mpr ⟨_, List.getElem_mem hlt, by rw [hover]; rfl⟩
  have hset : (crew.arrive place outcome).remaining = crew.remaining - 1 := by
    rw [remaining, arrive, List.countP_set hlt, hover]
    rfl
  omega

theorem busy_eq_zero_iff {crew : Crew α} :
    crew.busy = 0 ↔ ∀ slot ∈ crew.slots, ¬ slot.isWorking :=
  List.countP_eq_zero

/-- A crew that is not at its end has a job that can be brought to its own end. -/
theorem exists_arrive (hcapacity : 0 < rules.capacity) (store : Store σ) {crew : Crew α}
    {slot : Slot α} (hslot : slot ∈ crew.slots) (hover : slot.isOver = false) (state : σ) :
    ∃ moves place outcome state', crew.follow rules store moves state =
      (crew.arrive place outcome, state') ∧
      (crew.arrive place outcome).remaining < crew.remaining := by
  by_cases hbusy : crew.busy = 0
  · -- with no job at work there is room for the one in the slot
    obtain ⟨place, hplace⟩ := List.mem_iff_getElem?.mp hslot
    cases slot with
    | waiting job =>
      obtain ⟨moves, hmoves⟩ :=
        exists_follow_waiting store hplace (hbusy.symm ▸ hcapacity) state
      exact ⟨moves, place, _, _, hmoves, remaining_arrive hplace rfl _⟩
    | working job => exact absurd rfl (busy_eq_zero_iff.mp hbusy _ hslot)
    | finished => cases hover
    | abandoned => cases hover
  · obtain ⟨worker, hworker, hworks⟩ := List.countP_pos_iff.mp (Nat.pos_of_ne_zero hbusy)
    obtain ⟨place, hplace⟩ := List.mem_iff_getElem?.mp hworker
    cases worker with
    | working job =>
      obtain ⟨moves, hmoves⟩ := exists_follow_working rules store hplace state
      exact ⟨moves, place, _, _, hmoves, remaining_arrive hplace rfl _⟩
    | waiting job => cases hworks
    | finished => cases hworks
    | abandoned => cases hworks

/-- **A crew is never stuck**: if one job at least may work, moves bring all jobs to their
ends. -/
theorem exists_follow_over (hcapacity : 0 < rules.capacity) (store : Store σ) (crew : Crew α)
    (state : σ) :
    ∃ moves, ∀ slot ∈ (crew.follow rules store moves state).1.slots, slot.isOver := by
  -- on the number of jobs that are not over, one of which ends at a time
  induction hremaining : crew.remaining using Nat.strongRecOn generalizing crew state with
  | ind count ih =>
    by_cases hleft : ∃ slot ∈ crew.slots, slot.isOver = false
    · obtain ⟨slot, hslot, hover⟩ := hleft
      obtain ⟨moves, place, outcome, state', hmoves, hless⟩ :=
        exists_arrive hcapacity store hslot hover state
      obtain ⟨rest, hrest⟩ := ih _ (hremaining ▸ hless) (crew.arrive place outcome) state' rfl
      refine ⟨moves ++ rest, ?_⟩
      rw [follow_append, hmoves]
      exact hrest
    · refine ⟨[], ?_⟩
      intro slot hslot
      exact Bool.of_not_eq_false fun hover => hleft ⟨slot, hslot, hover⟩

/-! ### Nothing is left to settle -/

theorem settle_of_over {crew : Crew α} (hover : ∀ slot ∈ crew.slots, slot.isOver) (state : σ)
    (place : Nat) : crew.settle rules store state place = (crew, state) := by
  unfold settle
  split
  · rename_i job hslot
    cases hover _ (List.mem_of_getElem? hslot)
  · rename_i job hslot
    cases hover _ (List.mem_of_getElem? hslot)
  · rfl

theorem settleAll_of_over {crew : Crew α} (hover : ∀ slot ∈ crew.slots, slot.isOver)
    (places : List Nat) (state : σ) :
    crew.settleAll rules store places state = (crew, state) := by
  induction places with
  | nil => rfl
  | cons place places ih => simp only [settleAll, settle_of_over hover, ih]

/-- A schedule that brings all jobs to their ends is all that happens. -/
theorem finish_eq_follow {crew : Crew α} {schedule : Schedule} {state : σ}
    (hover : ∀ slot ∈ (crew.follow rules store schedule state).1.slots, slot.isOver) :
    crew.finish rules store schedule state = crew.follow rules store schedule state :=
  settleAll_of_over hover _ _

/-! ### Any order -/

theorem busy_ofJobs (jobs : List (Job α)) : (ofJobs jobs).busy = 0 := by
  refine busy_eq_zero_iff.mpr ?_
  intro slot hslot
  obtain ⟨job, -, rfl⟩ := List.mem_map.mp hslot
  exact Bool.false_ne_true

/-- If every place has an arrival, all jobs are over. -/
theorem Tracks.over_of_arrivals {count : Nat} {crew : Crew α} (h : crew.Tracks rules count)
    (harrivals : (crew.arrivals.map Arrival.place).Perm (List.range count)) :
    ∀ slot ∈ crew.slots, slot.isOver := by
  intro slot hslot
  obtain ⟨place, hplace⟩ := List.mem_iff_getElem?.mp hslot
  have hlt := (List.getElem?_eq_some_iff.mp hplace).1
  rw [h.length] at hlt
  obtain ⟨⟨place, outcome⟩, harrival, rfl⟩ :=
    List.mem_map.mp (harrivals.mem_iff.mpr (List.mem_range.mpr hlt))
  rw [(h.finished place).mpr ⟨outcome, harrival⟩, Option.some.injEq] at hplace
  exact hplace ▸ rfl

/-- Jobs that wait can complete in any order, one of them at work at a time. -/
theorem exists_follow_inOrder (hcapacity : 0 < rules.capacity) (store : Store σ)
    {order : List Nat} (horder : order.Nodup) {crew : Crew α} (hidle : crew.busy = 0)
    (hwaiting : ∀ place ∈ order, ∃ job, crew.slots[place]? = some (.waiting job)) (state : σ) :
    ∃ moves, (crew.follow rules store moves state).1.arrivals.map Arrival.place =
      crew.arrivals.map Arrival.place ++ order := by
  -- nobody is at work between two jobs, so there is room for the next one
  induction order generalizing crew state with
  | nil => exact ⟨[], (List.append_nil _).symm⟩
  | cons place order ih =>
    rw [List.nodup_cons] at horder
    obtain ⟨job, hslot⟩ := hwaiting place List.mem_cons_self
    obtain ⟨moves, hmoves⟩ :=
      exists_follow_waiting store hslot (hidle.symm ▸ hcapacity) state
    generalize (job.run store state).1 = outcome at hmoves
    have hidle' : (crew.arrive place outcome).busy = 0 := by
      refine busy_eq_zero_iff.mpr ?_
      intro slot hmem
      rcases List.mem_or_eq_of_mem_set hmem with hold | rfl
      · exact busy_eq_zero_iff.mp hidle slot hold
      · exact Bool.false_ne_true
    have hwaiting' : ∀ other ∈ order, ∃ job,
        (crew.arrive place outcome).slots[other]? = some (.waiting job) := by
      intro other hother
      have hne : other ≠ place := fun heq => horder.1 (heq ▸ hother)
      rw [arrive_other crew hne]
      exact hwaiting other (List.mem_cons_of_mem _ hother)
    obtain ⟨rest, hrest⟩ := ih horder.2 hidle' hwaiting' (job.run store state).2
    refine ⟨moves ++ rest, ?_⟩
    rw [follow_append, hmoves, hrest, arrive_arrivals, List.map_append, List.append_assoc]
    rfl

/-- **The jobs of a crew can complete in any order**, if one job at least may work. -/
theorem exists_schedule (hcapacity : 0 < rules.capacity) (store : Store σ) (jobs : List (Job α))
    (state : σ) {order : List Nat} (horder : order.Perm (List.range jobs.length)) :
    ∃ schedule, (work rules store schedule jobs state).1.arrivals.map Arrival.place = order := by
  have hwaiting : ∀ place ∈ order, ∃ job,
      (ofJobs jobs).slots[place]? = some (.waiting job) := by
    intro place hmem
    have hlt := List.mem_range.mp (horder.mem_iff.mp hmem)
    exact ⟨jobs[place], by rw [ofJobs, List.getElem?_map, List.getElem?_eq_getElem hlt]; rfl⟩
  obtain ⟨schedule, hschedule⟩ := exists_follow_inOrder hcapacity store
    (horder.nodup_iff.mpr List.nodup_range) (busy_ofJobs jobs) hwaiting state
  have hplaces : ((ofJobs jobs).follow rules store schedule state).1.arrivals.map Arrival.place =
      order := hschedule
  have hover := (follow_tracks rules store schedule jobs state).over_of_arrivals
    (hplaces.symm ▸ horder)
  refine ⟨schedule, ?_⟩
  rw [work, finish_eq_follow hover, hplaces]

end Crew

end ChunkedArray
