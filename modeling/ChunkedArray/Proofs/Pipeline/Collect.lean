import ChunkedArray.Proofs.Pipeline.Crew
import Mathlib.Data.List.Nodup
import Mathlib.Data.Set.List
import Mathlib.Tactic.Choose

/-!
# ChunkedArray.Proofs.Pipeline.Collect

What the arrivals of a crew add up to. The results are put back by place, so a list of
arrivals without a failure and with one arrival for every job gives the results in the
order of the jobs, whatever the order of the arrivals is (`collect_eq_ok`). Where one
outcome has arrived for each job (`Completes`), the results are all there is to collect
unless some job has failed, and then it is the failure that arrived first.

A batch that is dispatched therefore ends in one of two ways (`dispatch_cases`): with
the failure of a job that arrived, or with a result of every job in its place.
-/

namespace ChunkedArray

variable {α σ : Type} {rules : Rules} {store : Store σ}

/-! ### The failure that arrived first -/

theorem Arrival.error?_eq_some {arrival : Arrival α} {error : AccessError} :
    arrival.error? = some error ↔ arrival.outcome = .error error := by
  unfold error?
  cases arrival.outcome <;> simp

theorem Arrival.error?_eq_none {arrival : Arrival α} :
    arrival.error? = none ↔ ∃ value, arrival.outcome = .ok value := by
  unfold error?
  cases arrival.outcome <;> simp

/-- The first failure among some arrivals has this error. -/
def FailsFirst (arrivals : List (Arrival α)) (error : AccessError) : Prop :=
  ∃ before place after, arrivals = before ++ ⟨place, .error error⟩ :: after ∧
    ∀ earlier ∈ before, ∃ value, earlier.outcome = .ok value

theorem firstError_eq_some_iff {arrivals : List (Arrival α)} {error : AccessError} :
    firstError arrivals = some error ↔ FailsFirst arrivals error := by
  rw [firstError, List.findSome?_eq_some_iff]
  constructor
  · rintro ⟨before, ⟨place, outcome⟩, after, rfl, hfailed, hbefore⟩
    obtain rfl : outcome = .error error := Arrival.error?_eq_some.mp hfailed
    exact ⟨before, place, after, rfl, fun earlier hmem =>
      Arrival.error?_eq_none.mp (hbefore earlier hmem)⟩
  · rintro ⟨before, place, after, rfl, hbefore⟩
    exact ⟨before, ⟨place, .error error⟩, after, rfl, rfl, fun earlier hmem =>
      Arrival.error?_eq_none.mpr (hbefore earlier hmem)⟩

theorem firstError_eq_none_iff {arrivals : List (Arrival α)} :
    firstError arrivals = none ↔ ∀ arrival ∈ arrivals, ∃ value, arrival.outcome = .ok value := by
  simp only [firstError, List.findSome?_eq_none_iff, Arrival.error?_eq_none]

theorem mem_of_firstError {arrivals : List (Arrival α)} {error : AccessError}
    (h : firstError arrivals = some error) : ∃ place, ⟨place, .error error⟩ ∈ arrivals := by
  obtain ⟨before, place, after, rfl, -⟩ := firstError_eq_some_iff.mp h
  exact ⟨place, by simp⟩

theorem hasFailed_iff {crew : Crew α} : crew.hasFailed ↔ firstError crew.arrivals ≠ none := by
  simp [Crew.hasFailed, firstError, Option.isSome_iff_ne_none]

/-! ### Results by their places -/

/-- An arrival noted in the slots of the results. -/
def noteResult (slots : List (Option α)) (arrival : Arrival α) : List (Option α) :=
  match arrival.outcome with
  | .ok value => slots.set arrival.place (some value)
  | .error _ => slots

theorem byPlace_eq_foldl (count : Nat) (arrivals : List (Arrival α)) :
    byPlace count arrivals = arrivals.foldl noteResult (List.replicate count none) := rfl

@[simp] theorem length_noteResult (slots : List (Option α)) (arrival : Arrival α) :
    (noteResult slots arrival).length = slots.length := by
  unfold noteResult
  split <;> simp

@[simp] theorem length_foldl_noteResult (arrivals : List (Arrival α)) (slots : List (Option α)) :
    (arrivals.foldl noteResult slots).length = slots.length := by
  induction arrivals generalizing slots with
  | nil => rfl
  | cons arrival arrivals ih => rw [List.foldl_cons, ih, length_noteResult]

theorem noteResult_other {slots : List (Option α)} {arrival : Arrival α} {place : Nat}
    (h : place ≠ arrival.place) : (noteResult slots arrival)[place]? = slots[place]? := by
  unfold noteResult
  split
  · exact List.getElem?_set_ne (Ne.symm h)
  · rfl

theorem foldl_noteResult_other {arrivals : List (Arrival α)} {slots : List (Option α)}
    {place : Nat} (h : place ∉ arrivals.map Arrival.place) :
    (arrivals.foldl noteResult slots)[place]? = slots[place]? := by
  induction arrivals generalizing slots with
  | nil => rfl
  | cons arrival arrivals ih =>
    rw [List.map_cons, List.mem_cons, not_or] at h
    rw [List.foldl_cons, ih h.2, noteResult_other h.1]

/-- No arrival at the place comes after its own, so its result stays. -/
theorem foldl_noteResult_own {arrivals : List (Arrival α)} {slots : List (Option α)}
    {place : Nat} {value : α} (hnodup : (arrivals.map Arrival.place).Nodup)
    (hmem : ⟨place, .ok value⟩ ∈ arrivals) (hlt : place < slots.length) :
    (arrivals.foldl noteResult slots)[place]? = some (some value) := by
  -- the arrivals behind the one at the place are at other places
  induction arrivals generalizing slots with
  | nil => simp at hmem
  | cons arrival arrivals ih =>
    rw [List.map_cons, List.nodup_cons] at hnodup
    rw [List.foldl_cons]
    rcases List.mem_cons.mp hmem with rfl | hmem
    · rw [foldl_noteResult_other hnodup.1]
      exact List.getElem?_set_self hlt
    · exact ih hnodup.2 hmem (by rwa [length_noteResult])

/-- With one arrival for each job and no failure, the results come in the order of the
jobs. -/
theorem collect_eq_ok {arrivals : List (Arrival α)} {values : List α}
    (hnodup : (arrivals.map Arrival.place).Nodup) (hok : firstError arrivals = none)
    (hvalues : ∀ place (hlt : place < values.length), ⟨place, .ok values[place]⟩ ∈ arrivals) :
    collect values.length arrivals = .ok values := by
  have hslots : byPlace values.length arrivals = values.map some := by
    rw [byPlace_eq_foldl]
    refine List.ext_getElem? ?_
    intro place
    by_cases hlt : place < values.length
    · rw [foldl_noteResult_own hnodup (hvalues place hlt) (by simpa using hlt), List.getElem?_map,
        List.getElem?_eq_getElem hlt, Option.map_some]
    · rw [List.getElem?_eq_none (by simpa using hlt), List.getElem?_eq_none (by simpa using hlt)]
  simp [collect, hok, hslots]

theorem collect_eq_error_iff {arrivals : List (Arrival α)} {error : AccessError} {count : Nat} :
    collect count arrivals = .error error ↔ firstError arrivals = some error := by
  unfold collect
  cases firstError arrivals <;> simp

/-! ### One outcome for each job -/

/-- One outcome has arrived for each of some jobs, in whatever order. -/
structure Completes (arrivals : List (Arrival α)) (outcomes : List (Outcome α)) : Prop where
  once : (arrivals.map Arrival.place).Perm (List.range outcomes.length)
  own : ∀ arrival ∈ arrivals, outcomes[arrival.place]? = some arrival.outcome

namespace Completes

variable {arrivals : List (Arrival α)} {outcomes : List (Outcome α)}

/-- The outcome of each job has arrived. -/
theorem arrived (h : Completes arrivals outcomes) {place : Nat} {outcome : Outcome α}
    (houtcome : outcomes[place]? = some outcome) : ⟨place, outcome⟩ ∈ arrivals := by
  have hlt := (List.getElem?_eq_some_iff.mp houtcome).1
  obtain ⟨⟨place, other⟩, hmem, rfl⟩ :=
    List.mem_map.mp (h.once.mem_iff.mpr (List.mem_range.mpr hlt))
  have hown := h.own _ hmem
  rw [houtcome] at hown
  rwa [Option.some.inj hown]

theorem arrived_result {results : List α} (h : Completes arrivals (results.map .ok))
    {place : Nat} (hlt : place < results.length) : ⟨place, .ok results[place]⟩ ∈ arrivals := by
  refine h.arrived ?_
  rw [List.getElem?_map, List.getElem?_eq_getElem hlt, Option.map_some]

/-- Where nothing that has arrived is a failure, every outcome is a result. -/
theorem exists_results (h : Completes arrivals outcomes) (hnone : firstError arrivals = none) :
    ∃ results : List α, outcomes = results.map .ok := by
  have hresults : ∀ outcome ∈ outcomes, outcome ∈ Set.range Except.ok := by
    intro outcome hmem
    obtain ⟨place, hplace⟩ := List.mem_iff_getElem?.mp hmem
    obtain ⟨result, hresult⟩ := firstError_eq_none_iff.mp hnone _ (h.arrived hplace)
    exact ⟨result, hresult.symm⟩
  obtain ⟨results, hmap⟩ : outcomes ∈ Set.range (List.map Except.ok) := by
    rwa [Set.range_list_map]
  exact ⟨results, hmap.symm⟩

/-- Results are collected in the order of their jobs. -/
theorem collect_results {results : List α} (h : Completes arrivals (results.map .ok)) :
    collect results.length arrivals = .ok results := by
  have hnodup : (arrivals.map Arrival.place).Nodup := h.once.nodup_iff.mpr List.nodup_range
  have hnone : firstError arrivals = none := by
    refine firstError_eq_none_iff.mpr ?_
    intro arrival hmem
    have hown := h.own arrival hmem
    rw [List.getElem?_map] at hown
    obtain ⟨result, -, hresult⟩ := Option.map_eq_some_iff.mp hown
    exact ⟨result, hresult.symm⟩
  exact collect_eq_ok hnodup hnone fun place hlt => h.arrived_result hlt

/-- **Collecting succeeds with the results of the jobs in their order, and only with
them.** -/
theorem collect_eq_ok_iff (h : Completes arrivals outcomes) {values : List α} :
    collect outcomes.length arrivals = .ok values ↔ outcomes = values.map .ok := by
  constructor
  · intro hok
    have hnone : firstError arrivals = none := by
      cases hfirst : firstError arrivals with
      | none => rfl
      | some error =>
        rw [collect_eq_error_iff.mpr hfirst] at hok
        cases hok
    obtain ⟨results, rfl⟩ := h.exists_results hnone
    rw [List.length_map, h.collect_results] at hok
    rw [Except.ok.inj hok]
  · rintro rfl
    rw [List.length_map, h.collect_results]

/-- Collecting fails exactly if some job has failed. -/
theorem collect_fails_iff (h : Completes arrivals outcomes) :
    (∃ error, collect outcomes.length arrivals = .error error) ↔
      ∃ error, .error error ∈ outcomes := by
  constructor
  · rintro ⟨error, herror⟩
    obtain ⟨place, hmem⟩ := mem_of_firstError (collect_eq_error_iff.mp herror)
    exact ⟨error, List.mem_of_getElem? (h.own _ hmem)⟩
  · rintro ⟨error, hmem⟩
    cases hcollect : collect outcomes.length arrivals with
    | error failure => exact ⟨failure, rfl⟩
    | ok values =>
      rw [h.collect_eq_ok_iff.mp hcollect] at hmem
      obtain ⟨value, -, hvalue⟩ := List.mem_map.mp hmem
      cases hvalue

end Completes

/-! ### How a batch of jobs ends -/

/-- A crew that begins with some jobs and works until all of them have ended. -/
def Crew.work (rules : Rules) (store : Store σ) (schedule : Schedule) (jobs : List (Job α))
    (state : σ) : Crew α × σ :=
  (Crew.ofJobs jobs).finish rules store schedule state

theorem dispatch_eq (schedule : Schedule) (jobs : List (Job α)) (state : σ) :
    dispatch rules store schedule jobs state =
      (collect jobs.length (Crew.work rules store schedule jobs state).1.arrivals,
        (Crew.work rules store schedule jobs state).2) := rfl

theorem Crew.work_tracks (rules : Rules) (store : Store σ) (schedule : Schedule)
    (jobs : List (Job α)) (state : σ) :
    (Crew.work rules store schedule jobs state).1.Tracks rules jobs.length :=
  finish_tracks schedule jobs state

/-- In the end a job has arrived, or it was given up after another one had failed. -/
theorem Crew.work_over (rules : Rules) (store : Store σ) (schedule : Schedule)
    (jobs : List (Job α)) (state : σ) {place : Nat} (hplace : place < jobs.length) :
    (∃ outcome, ⟨place, outcome⟩ ∈ (work rules store schedule jobs state).1.arrivals) ∨
      (work rules store schedule jobs state).1.slots[place]? = some .abandoned := by
  have htracks := work_tracks rules store schedule jobs state
  have hlt : place < (work rules store schedule jobs state).1.slots.length := by
    rwa [htracks.length]
  have hslot := List.getElem?_eq_getElem hlt
  generalize (work rules store schedule jobs state).1.slots[place] = slot at hslot
  have hover : slot.isOver := finish_over schedule (ofJobs jobs) state hslot
  cases slot with
  | waiting job => cases hover
  | working job => cases hover
  | finished => exact Or.inl ((htracks.finished place).mp hslot)
  | abandoned => exact Or.inr hslot

/-- Arrivals at one place are one arrival. -/
theorem Crew.Tracks.arrival_unique {count : Nat} {crew : Crew α} (h : crew.Tracks rules count)
    {place : Nat} {outcome other : Outcome α} (hmem : ⟨place, outcome⟩ ∈ crew.arrivals)
    (hother : ⟨place, other⟩ ∈ crew.arrivals) : outcome = other := by
  have heq := List.inj_on_of_nodup_map h.nodup hmem hother rfl
  exact (Arrival.mk.inj heq).2

theorem Crew.finished_at {crew : Crew α} (hfinished : ∀ slot ∈ crew.slots, slot = .finished)
    {place : Nat} (hlt : place < crew.slots.length) : crew.slots[place]? = some .finished := by
  rw [List.getElem?_eq_getElem hlt, hfinished _ (List.getElem_mem hlt)]

/-- If all jobs have finished, one outcome has arrived for each of them. -/
theorem Crew.Tracks.exists_completes {count : Nat} {crew : Crew α} (h : crew.Tracks rules count)
    (hfinished : ∀ slot ∈ crew.slots, slot = .finished) :
    ∃ outcomes, outcomes.length = count ∧ Completes crew.arrivals outcomes := by
  have harrived : ∀ place, place < count ↔ ∃ outcome, ⟨place, outcome⟩ ∈ crew.arrivals := by
    intro place
    rw [← h.finished place, ← h.length]
    exact ⟨finished_at hfinished, fun hslot => (List.getElem?_eq_some_iff.mp hslot).1⟩
  choose outcome houtcome using fun place => (harrived place).mp
  let outcomes := List.ofFn fun place : Fin count => outcome place place.isLt
  have hlength : outcomes.length = count := List.length_ofFn
  refine ⟨outcomes, hlength, ?_, ?_⟩
  · rw [hlength]
    refine (List.perm_ext_iff_of_nodup h.nodup List.nodup_range).mpr ?_
    intro place
    rw [List.mem_range, harrived place]
    constructor
    · intro hmem
      obtain ⟨⟨place, arrived⟩, harrival, rfl⟩ := List.mem_map.mp hmem
      exact ⟨arrived, harrival⟩
    · rintro ⟨arrived, hmem⟩
      exact List.mem_map_of_mem hmem
  · rintro ⟨place, arrived⟩ hmem
    have hlt := (harrived place).mpr ⟨arrived, hmem⟩
    rw [List.getElem?_eq_getElem (hlength.symm ▸ hlt), List.getElem_ofFn]
    exact congrArg some (h.arrival_unique (houtcome place hlt) hmem)

/-- If nothing may be given up in the end, all jobs have finished. -/
theorem Crew.work_finished {schedule : Schedule} {jobs : List (Job α)} {state : σ}
    (hmay : ¬ (work rules store schedule jobs state).1.mayGiveUp rules) {slot : Slot α}
    (hslot : slot ∈ (work rules store schedule jobs state).1.slots) : slot = .finished := by
  obtain ⟨place, hplace⟩ := List.mem_iff_getElem?.mp hslot
  have hover : slot.isOver := finish_over schedule (ofJobs jobs) state hplace
  exact (work_tracks rules store schedule jobs state).finished_of_over hmay hslot hover

/-- A batch of jobs ends with the failure of one of them or with the results of all. -/
theorem dispatch_cases (rules : Rules) (store : Store σ) (schedule : Schedule)
    (jobs : List (Job α)) (state : σ) :
    (∃ error place, (dispatch rules store schedule jobs state).1 = .error error ∧
      ⟨place, .error error⟩ ∈ (Crew.work rules store schedule jobs state).1.arrivals) ∨
    ∃ values, (dispatch rules store schedule jobs state).1 = .ok values ∧
      values.length = jobs.length ∧ ∀ place (hlt : place < values.length),
        ⟨place, .ok values[place]⟩ ∈ (Crew.work rules store schedule jobs state).1.arrivals := by
  rw [dispatch_eq]
  cases hfirst : firstError (Crew.work rules store schedule jobs state).1.arrivals with
  | some error =>
    obtain ⟨place, hmem⟩ := mem_of_firstError hfirst
    exact Or.inl ⟨error, place, collect_eq_error_iff.mpr hfirst, hmem⟩
  | none =>
    -- nothing has failed, so nothing was given up and every job has arrived with a result
    have hmay : ¬ (Crew.work rules store schedule jobs state).1.mayGiveUp rules := by
      intro hmay
      exact hasFailed_iff.mp (Bool.and_eq_true_iff.mp hmay).2 hfirst
    obtain ⟨outcomes, hlength, hcompletes⟩ :=
      (Crew.work_tracks rules store schedule jobs state).exists_completes
        fun slot => Crew.work_finished hmay
    obtain ⟨values, rfl⟩ := hcompletes.exists_results hfirst
    rw [List.length_map] at hlength
    refine Or.inr ⟨values, ?_, hlength, fun place hlt => hcompletes.arrived_result hlt⟩
    rw [← hlength]
    exact hcompletes.collect_results

/-- If one job can only fail and no other one does, the batch ends with the failure of that
job. -/
theorem dispatch_eq_error {schedule : Schedule} {jobs : List (Job α)} {state : σ} {place : Nat}
    {error : AccessError} (hplace : place < jobs.length)
    (hown : ∀ outcome, ⟨place, outcome⟩ ∈ (Crew.work rules store schedule jobs state).1.arrivals →
      outcome = .error error)
    (hothers : ∀ other outcome,
      ⟨other, outcome⟩ ∈ (Crew.work rules store schedule jobs state).1.arrivals → other ≠ place →
      ∃ value, outcome = .ok value) :
    (dispatch rules store schedule jobs state).1 = .error error := by
  have hfailed : ∀ other failure,
      ⟨other, .error failure⟩ ∈ (Crew.work rules store schedule jobs state).1.arrivals →
      other = place ∧ failure = error := by
    intro other failure hmem
    by_cases heq : other = place
    · subst heq
      exact ⟨rfl, Except.error.inj (hown _ hmem)⟩
    · obtain ⟨value, hok⟩ := hothers other _ hmem heq
      cases hok
  rcases dispatch_cases rules store schedule jobs state with
    ⟨failure, other, herror, hmem⟩ | ⟨values, -, hlength, hvalues⟩
  · rw [herror, (hfailed other failure hmem).2]
  · -- all jobs would have arrived with a result, the one at the place too
    cases hown _ (hvalues place (by omega))

end ChunkedArray
