import ChunkedArray.Proofs.Pipeline.Collect

/-!
# ChunkedArray.Proofs.Pipeline.Turns

Jobs that take turns.

Without a crew and its slots, jobs at work on one store are a list in which one job or
another makes its next call (`Job.Turn`). Every step of a crew is such a turn or changes
nothing but the books, so whatever the schedule is, the outcomes that arrive are those to
which the jobs come by taking turns, each at its own place, and the store is left as the
turns leave it (`Crew.work_turns`).
-/

namespace ChunkedArray

variable {α σ : Type} {rules : Rules} {store : Store σ}

/-- One of some jobs makes its next call and goes on with the answer to it. -/
inductive Job.Turn (store : Store σ) : List (Job α) × σ → List (Job α) × σ → Prop
  | call {jobs : List (Job α)} {state : σ} {place : Nat} {call : StoreCall}
      {next : Outcome call.Answer → Job α} (hjob : jobs[place]? = some (.ask call next)) :
      Turn store (jobs, state)
        (jobs.set place (next (store.answer call state).1), (store.answer call state).2)

/-- Any number of turns. -/
abbrev Job.Turns (store : Store σ) : List (Job α) × σ → List (Job α) × σ → Prop :=
  Relation.ReflTransGen (Job.Turn store)

/-- What is left to do of the job in a slot. A job that has finished has nothing left but
its outcome, which has arrived. -/
def Slot.Leaves (arrivals : List (Arrival α)) (place : Nat) : Slot α → Job α → Prop
  | waiting job, rest | working job, rest => rest = job
  | finished, rest => ∃ outcome, ⟨place, outcome⟩ ∈ arrivals ∧ rest = .done outcome
  | abandoned, _ => True

theorem Slot.Leaves.mono {arrivals arrivals' : List (Arrival α)} {place : Nat} {slot : Slot α}
    {rest : Job α} (h : slot.Leaves arrivals place rest)
    (harrivals : ∀ arrival ∈ arrivals, arrival ∈ arrivals') : slot.Leaves arrivals' place rest := by
  cases slot with
  | waiting job => exact h
  | working job => exact h
  | finished =>
    obtain ⟨outcome, hmem, hrest⟩ := h
    exact ⟨outcome, harrivals _ hmem, hrest⟩
  | abandoned => trivial

namespace Crew

/-- What is left to do of the jobs of a crew, in the order of their places. -/
structure Leaves (crew : Crew α) (rest : List (Job α)) : Prop where
  length : rest.length = crew.slots.length
  slots : ∀ (place : Nat) slot, crew.slots[place]? = some slot →
    ∃ job, rest[place]? = some job ∧ slot.Leaves crew.arrivals place job

theorem leaves_ofJobs (jobs : List (Job α)) : (ofJobs jobs).Leaves jobs where
  length := by simp [ofJobs]
  slots place slot hslot := by
    rw [ofJobs, List.getElem?_map] at hslot
    obtain ⟨job, hjob, rfl⟩ := Option.map_eq_some_iff.mp hslot
    exact ⟨job, hjob, rfl⟩

/-- The job of a slot that still has a job in it. -/
theorem Leaves.own {crew : Crew α} {rest : List (Job α)} (h : crew.Leaves rest) {place : Nat}
    {slot : Slot α} {job : Job α} (hslot : crew.slots[place]? = some slot)
    (hjob : slot = .waiting job ∨ slot = .working job) : rest[place]? = some job := by
  obtain ⟨own, hown, hleaves⟩ := h.slots place slot hslot
  rcases hjob with rfl | rfl
  · exact hleaves ▸ hown
  · exact hleaves ▸ hown

/-- The slot at one place and what is left of its job change together. -/
theorem Leaves.set {crew : Crew α} {rest : List (Job α)} (h : crew.Leaves rest) {place : Nat}
    {slot : Slot α} {job : Job α} {arrivals : List (Arrival α)}
    (harrivals : ∀ arrival ∈ crew.arrivals, arrival ∈ arrivals)
    (hslot : slot.Leaves arrivals place job) :
    (Crew.mk (crew.slots.set place slot) arrivals).Leaves (rest.set place job) where
  length := by simp [h.length]
  slots other found hfound := by
    by_cases heq : other = place
    · subst heq
      have hlt : other < crew.slots.length := by
        have hlt := (List.getElem?_eq_some_iff.mp hfound).1
        rwa [List.length_set] at hlt
      rw [List.getElem?_set_self hlt, Option.some.injEq] at hfound
      subst hfound
      exact ⟨job, List.getElem?_set_self (h.length ▸ hlt), hslot⟩
    · rw [List.getElem?_set_ne (Ne.symm heq)] at hfound ⊢
      obtain ⟨other', hother, hleaves⟩ := h.slots other found hfound
      exact ⟨other', hother, hleaves.mono harrivals⟩

/-- A step of the crew that makes no call changes its slots, but not what is left to do. -/
theorem Leaves.setSame {crew : Crew α} {rest : List (Job α)} (h : crew.Leaves rest) {place : Nat}
    {slot : Slot α} {job : Job α} {arrivals : List (Arrival α)}
    (hjob : rest[place]? = some job)
    (harrivals : ∀ arrival ∈ crew.arrivals, arrival ∈ arrivals)
    (hslot : slot.Leaves arrivals place job) :
    (Crew.mk (crew.slots.set place slot) arrivals).Leaves rest := by
  obtain ⟨hlt, rfl⟩ := List.getElem?_eq_some_iff.mp hjob
  have hset := h.set harrivals hslot
  rwa [List.set_getElem_self hlt] at hset

/-- **A step of a crew is a turn of one of its jobs, or none.** -/
theorem Leaves.step {crew crew' : Crew α} {state state' : σ} {rest : List (Job α)}
    (h : crew.Leaves rest) (hstep : Step rules store (crew, state) (crew', state')) :
    ∃ rest', Job.Turns store (rest, state) (rest', state') ∧ crew'.Leaves rest' := by
  -- only a call changes what is left to do; the other steps move a job to another slot
  cases hstep with
  | start hslot =>
    exact ⟨rest, .refl, h.setSame (h.own hslot (Or.inl rfl)) (fun _ hmem => hmem) rfl⟩
  | call hslot =>
    have hjob := h.own hslot (Or.inr rfl)
    exact ⟨_, .single (.call hjob), h.set (fun _ hmem => hmem) rfl⟩
  | @arrive _ _ place outcome hslot =>
    have hjob := h.own hslot (Or.inr rfl)
    have harrived : ⟨place, outcome⟩ ∈ crew.arrivals ++ [⟨place, outcome⟩] := by simp
    exact ⟨rest, .refl, h.setSame hjob (fun _ hmem => List.mem_append_left _ hmem)
      ⟨outcome, harrived, rfl⟩⟩
  | giveUp hslot hmay =>
    exact ⟨rest, .refl, h.setSame (h.own hslot (Or.inl rfl)) (fun _ hmem => hmem) True.intro⟩

/-- **What a crew does, its jobs do by taking turns.** -/
theorem work_turns (rules : Rules) (store : Store σ) (schedule : Schedule) (jobs : List (Job α))
    (state : σ) :
    ∃ rest, Job.Turns store (jobs, state) (rest, (work rules store schedule jobs state).2) ∧
      (work rules store schedule jobs state).1.Leaves rest := by
  refine finish_induction (motive := fun crew state' => ∃ rest,
    Job.Turns store (jobs, state) (rest, state') ∧ crew.Leaves rest)
    ⟨jobs, .refl, leaves_ofJobs jobs⟩ ?_ schedule
  intro crew crew' state₁ state₂ hcrew hstep
  obtain ⟨rest, hturns, hleaves⟩ := hcrew
  obtain ⟨rest', hturn, hleaves'⟩ := hleaves.step hstep
  exact ⟨rest', hturns.trans hturn, hleaves'⟩

end Crew

end ChunkedArray
