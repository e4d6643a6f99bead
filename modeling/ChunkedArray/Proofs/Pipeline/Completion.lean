import ChunkedArray.Proofs.Pipeline.Progress
import ChunkedArray.Proofs.Pipeline.Turns
import ChunkedArray.Store.Table

/-!
# ChunkedArray.Proofs.Pipeline.Completion

Batches that are drained.

Such a batch gives up no job, so at its end every job has finished and one outcome has
arrived for each (`Completes`): the one that the job comes to at its place while all of them
take turns (`Job.Turns`). What the batch reports is told by these outcomes and by the order
in which they have arrived, and by nothing else (`drained_batch_complete`).
-/

namespace ChunkedArray

variable {α σ : Type} {rules : Rules} {store : Store σ}

/-- Jobs that have all finished have nothing left but their outcomes. -/
theorem Crew.Leaves.eq_map_done {crew : Crew α} {rest : List (Job α)}
    {outcomes : List (Outcome α)} (h : crew.Leaves rest)
    (hfinished : ∀ slot ∈ crew.slots, slot = .finished)
    (hlength : outcomes.length = crew.slots.length) (houtcomes : Completes crew.arrivals outcomes) :
    rest = outcomes.map .done := by
  refine List.ext_getElem? ?_
  intro place
  rw [List.getElem?_map]
  by_cases hlt : place < crew.slots.length
  · obtain ⟨job, hjob, outcome, hmem, rfl⟩ := h.slots place _ (finished_at hfinished hlt)
    rw [hjob, houtcomes.own _ hmem, Option.map_some]
  · rw [List.getElem?_eq_none (by rw [h.length]; omega), List.getElem?_eq_none (by omega),
      Option.map_none]

/-- At the end of a batch that is drained the outcomes of all jobs have arrived, and the jobs
come to them by taking turns. -/
theorem Crew.work_completes (hdrain : rules.policy = .drain) (store : Store σ)
    (schedule : Schedule) (jobs : List (Job α)) (state : σ) :
    ∃ outcomes, outcomes.length = jobs.length ∧
      Completes (work rules store schedule jobs state).1.arrivals outcomes ∧
      Job.Turns store (jobs, state)
        (outcomes.map .done, (work rules store schedule jobs state).2) := by
  have htracks := work_tracks rules store schedule jobs state
  have hfinished : ∀ slot ∈ (work rules store schedule jobs state).1.slots, slot = .finished :=
    fun slot => work_finished (not_mayGiveUp hdrain _)
  obtain ⟨outcomes, hlength, hcompletes⟩ := htracks.exists_completes hfinished
  obtain ⟨rest, hturns, hleaves⟩ := work_turns rules store schedule jobs state
  have hrest := hleaves.eq_map_done hfinished (hlength.trans htracks.length.symm) hcompletes
  exact ⟨outcomes, hlength, hcompletes, hrest ▸ hturns⟩

/-- However far a drained batch has come, moves that the bound on workers admits make all of
its jobs finish. -/
theorem Crew.exists_follow_finished (hdrain : rules.policy = .drain)
    (hcapacity : 0 < rules.capacity) (store : Store σ) (schedule : Schedule)
    (jobs : List (Job α)) (state : σ) :
    ∃ rest, ∀ slot ∈ ((ofJobs jobs).follow rules store (schedule ++ rest) state).1.slots,
      slot = .finished := by
  obtain ⟨rest, hover⟩ := exists_follow_over hcapacity store
    ((ofJobs jobs).follow rules store schedule state).1
    ((ofJobs jobs).follow rules store schedule state).2
  rw [← follow_append] at hover
  have htracks := follow_tracks rules store (schedule ++ rest) jobs state
  exact ⟨rest, fun slot hslot =>
    htracks.finished_of_over (not_mayGiveUp hdrain _) hslot (hover slot hslot)⟩

/-- **A batch that is drained loses nothing and repeats nothing**, whatever the number of
workers is and however the calls and the ends of the jobs follow each other.

When it ends every job has finished, with one outcome: the one that the job comes to at its
place while the jobs take turns. The batch fails exactly if some job has failed, with the
error of the failure that arrived first; it succeeds exactly if all have succeeded, with the
results in the order of the jobs. It cannot get stuck, and the jobs can complete in any
order. -/
theorem drained_batch_complete (workers : UInt64) (store : Store σ) (jobs : List (Job α))
    (state : σ) :
    let rules := Dispatcher.rules ⟨.drain, workers⟩
    (∀ schedule,
      let ended := Crew.work rules store schedule jobs state
      let batch := dispatch rules store schedule jobs state
      (∀ slot ∈ ended.1.slots, slot = .finished) ∧
      ∃ outcomes, outcomes.length = jobs.length ∧ Completes ended.1.arrivals outcomes ∧
        Job.Turns store (jobs, state) (outcomes.map .done, batch.2) ∧
        ((∃ error, batch.1 = .error error) ↔ ∃ error, .error error ∈ outcomes) ∧
        (∀ error, batch.1 = .error error ↔ FailsFirst ended.1.arrivals error) ∧
        ∀ values, batch.1 = .ok values ↔ outcomes = values.map .ok) ∧
    (∀ schedule, ∃ rest, ∀ slot ∈
      ((Crew.ofJobs jobs).follow rules store (schedule ++ rest) state).1.slots,
      slot = .finished) ∧
    ∀ order, order.Perm (List.range jobs.length) → ∃ schedule,
      (Crew.work rules store schedule jobs state).1.arrivals.map Arrival.place = order := by
  intro rules
  have hdrain : rules.policy = .drain := rfl
  have hcapacity : 0 < rules.capacity := Nat.lt_of_lt_of_le Nat.one_pos (Nat.le_max_right _ _)
  refine ⟨?_, ?_, ?_⟩
  · intro schedule ended batch
    obtain ⟨outcomes, hlength, hcompletes, hturns⟩ :=
      Crew.work_completes hdrain store schedule jobs state
    have hbatch : batch.1 = collect outcomes.length ended.1.arrivals := by
      rw [hlength]
      rfl
    refine ⟨fun slot => Crew.work_finished (Crew.not_mayGiveUp hdrain _), outcomes, hlength,
      hcompletes, hturns, ?_, ?_, ?_⟩
    · rw [hbatch]
      exact hcompletes.collect_fails_iff
    · intro error
      rw [hbatch, collect_eq_error_iff, firstError_eq_some_iff]
    · intro values
      rw [hbatch]
      exact hcompletes.collect_eq_ok_iff
  · intro schedule
    exact Crew.exists_follow_finished hdrain hcapacity store schedule jobs state
  · intro order horder
    exact Crew.exists_schedule hcapacity store jobs state horder

namespace Trio

/-- A table from which two of three chunks cannot be read. -/
def refusing : Store Table := Table.store fun verb key => verb = .get && (key = "b" || key = "c")

/-- Reads of the three chunks. -/
def jobs : List (Job (Option Bytes)) :=
  [.ofCall (.get "a"), .ofCall (.get "b"), .ofCall (.get "c")]

/-- The last job completes first; the first one begins only then, since two are at work. -/
def schedule : Schedule :=
  [.start 2, .start 1, .start 0, .proceed 2, .proceed 2, .start 0, .proceed 0, .proceed 0,
    .proceed 1, .proceed 1]

/-- Two workers report the failure that arrived first, which is not that of the first job to
fail; and the failures can also arrive the other way round. -/
theorem complete_in_other_order :
    (dispatch (Dispatcher.rules ⟨.drain, 2⟩) refusing schedule jobs {}).1 =
        .error (Table.refusal .get "c") ∧
      [1, 2, 0].Perm (List.range jobs.length) ∧
      ∃ schedule, (Crew.work (Dispatcher.rules ⟨.drain, 2⟩) refusing schedule jobs
        {}).1.arrivals.map Arrival.place = [1, 2, 0] := by
  obtain ⟨hbatch, -, horders⟩ := drained_batch_complete 2 refusing jobs {}
  obtain ⟨-, outcomes, -, -, -, -, hfails, -⟩ := hbatch schedule
  have hfirst : FailsFirst (Crew.work (Dispatcher.rules ⟨.drain, 2⟩) refusing schedule jobs
      {}).1.arrivals (Table.refusal .get "c") :=
    ⟨[], 2, [⟨0, .ok none⟩, ⟨1, .error (Table.refusal .get "b")⟩], rfl, nofun⟩
  have horder : [1, 2, 0].Perm (List.range jobs.length) := by decide
  exact ⟨(hfails _).mpr hfirst, horder, horders [1, 2, 0] horder⟩

end Trio

end ChunkedArray
