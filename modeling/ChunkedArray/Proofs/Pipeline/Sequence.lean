import ChunkedArray.Proofs.Pipeline.Division

/-!
# ChunkedArray.Proofs.Pipeline.Sequence

Jobs at the same time and one after another.

`Job.runAll` runs the jobs of a list one after another, each to its end. Where a
division says how each share answers on its own (`Division.Follows`), a job comes to
the same outcome and leaves the same share whether it runs alone, in the sequence or
together with the others; so the dispatched batch and the sequence succeed together, with
the same results (`Division.dispatch_ok_iff`) and the same shares
(`Division.dispatch_share`), and the dispatched batch fails with the failure of a job
that fails in the sequence (`Division.dispatch_error_mem`). A batch that keeps to the order
of its jobs is the sequence on any store (`dispatch_inOrder`).
-/

namespace ChunkedArray

variable {α σ γ : Type} {rules : Rules} {store : Store σ}

/-- The outcomes of some jobs that are run one after another, and the state that they
leave. -/
def Job.runAll (store : Store σ) : List (Job α) → σ → List (Outcome α) × σ
  | [], state => ([], state)
  | job :: jobs, state =>
    let (outcome, state) := job.run store state
    let (outcomes, state) := runAll store jobs state
    (outcome :: outcomes, state)

namespace Job

@[simp] theorem runAll_nil (store : Store σ) (state : σ) :
    runAll store ([] : List (Job α)) state = ([], state) := rfl

@[simp] theorem runAll_cons (store : Store σ) (job : Job α) (jobs : List (Job α)) (state : σ) :
    runAll store (job :: jobs) state =
      ((job.run store state).1 :: (runAll store jobs (job.run store state).2).1,
        (runAll store jobs (job.run store state).2).2) := rfl

@[simp] theorem length_runAll (store : Store σ) (jobs : List (Job α)) (state : σ) :
    (runAll store jobs state).1.length = jobs.length := by
  induction jobs generalizing state with
  | nil => rfl
  | cons job jobs ih => simp [ih]

end Job

namespace Division

variable {division : Division store γ} {post : Nat → Outcome α → γ → Prop}

/-! ### One job after another -/

/-- A job that runs alone keeps its contract. -/
theorem run_admits {place : Nat} {job : Job α} {state : σ}
    (h : division.Admits post state place job) :
    post place (job.run store state).1 (division.share place (job.run store state).2) := by
  obtain ⟨hmay, hens⟩ := h
  induction job generalizing state with
  | done outcome => exact hens
  | ask call next ih => exact ih _ (hmay.2 _) (hens _ _ (division.own hmay.1 state))

/-- A job that runs alone leaves the other shares as they are. -/
theorem run_share_other {place other : Nat} {job : Job α}
    (hmay : job.CallsOnly (division.may place)) (hne : other ≠ place) (state : σ) :
    division.share other (job.run store state).2 = division.share other state := by
  induction job generalizing state with
  | done outcome => rfl
  | ask call next ih => rw [Job.run_ask, ih _ (hmay.2 _), division.others hmay.1 hne]

/-- The jobs from a place on, one after another: each keeps its contract, and shares at
other places stay as they are. -/
theorem runAll_upholds (first : Nat) {jobs : List (Job α)} {state : σ}
    (hjobs : ∀ (place : Nat) job, jobs[place]? = some job →
      division.Admits post state (first + place) job) :
    (∀ (place : Nat) outcome, (Job.runAll store jobs state).1[place]? = some outcome →
      post (first + place) outcome
        (division.share (first + place) (Job.runAll store jobs state).2)) ∧
    ∀ other, other < first ∨ first + jobs.length ≤ other →
      division.share other (Job.runAll store jobs state).2 = division.share other state := by
  induction jobs generalizing first state with
  | nil => exact ⟨fun place outcome h => by simp at h, fun other _ => rfl⟩
  | cons job jobs ih =>
    have hfirst : division.Admits post state first job := hjobs 0 job rfl
    have hrest : ∀ (place : Nat) job', jobs[place]? = some job' →
        division.Admits post (job.run store state).2 (first + 1 + place) job' := by
      intro place job' hjob'
      have hplace : first + 1 + place = first + (place + 1) := by omega
      have hadmits := hjobs (place + 1) job' (by simpa using hjob')
      rw [hplace, Admits, run_share_other hfirst.1 (by omega)]
      exact hadmits
    obtain ⟨hposts, hothers⟩ := ih (first + 1) hrest
    rw [Job.runAll_cons]
    constructor
    · rintro (_ | place) outcome houtcome
      · obtain rfl := Option.some.inj houtcome
        rw [Nat.add_zero, hothers first (by omega)]
        exact run_admits hfirst
      · have hplace : first + (place + 1) = first + 1 + place := by omega
        rw [hplace]
        exact hposts place outcome (by simpa using houtcome)
    · intro other hother
      rw [List.length_cons] at hother
      rw [hothers other (by omega), run_share_other hfirst.1 (by omega)]

/-! ### At the same time and one after another -/

/-- The shares answer as a store does. -/
def Follows (division : Division store γ) (cell : Store γ) : Prop :=
  division.answers = cell.answering

/-- Each job makes only the calls that it may at its place. -/
def Suits (division : Division store γ) (jobs : List (Job α)) : Prop :=
  ∀ (place : Nat) job, jobs[place]? = some job → job.CallsOnly (division.may place)

/-- The outcome of the job at a place and the share that it leaves are those of the job on
its share alone. -/
def Alone (division : Division store γ) (cell : Store γ) (jobs : List (Job α)) (state : σ)
    (place : Nat) (outcome : Outcome α) (after : γ) : Prop :=
  ∀ job, jobs[place]? = some job → job.run cell (division.share place state) = (outcome, after)

variable {cell : Store γ} {jobs : List (Job α)} {state : σ}

theorem admits_alone (hcell : division.Follows cell) (hjobs : division.Suits jobs)
    (place : Nat) (job : Job α) (hjob : jobs[place]? = some job) :
    division.Admits (division.Alone cell jobs state) state place job := by
  refine ⟨hjobs place job hjob, ?_⟩
  rw [hcell]
  refine Job.ensures_mono ?_ (Job.ensures_run cell job (division.share place state))
  intro outcome after hrun other hother
  obtain rfl : job = other := Option.some.inj (hjob.symm.trans hother)
  exact hrun

/-- In the sequence every job comes to the outcome that it has alone, and leaves the
share that it leaves alone. -/
theorem runAll_alone (hcell : division.Follows cell) (hjobs : division.Suits jobs) (state : σ)
    {place : Nat} {job : Job α} (hjob : jobs[place]? = some job) :
    (Job.runAll store jobs state).1[place]? =
        some (job.run cell (division.share place state)).1 ∧
      division.share place (Job.runAll store jobs state).2 =
        (job.run cell (division.share place state)).2 := by
  have hlt : place < (Job.runAll store jobs state).1.length := by
    rw [Job.length_runAll]
    exact (List.getElem?_eq_some_iff.mp hjob).1
  have hadmits : ∀ (place : Nat) job, jobs[place]? = some job →
      division.Admits (division.Alone cell jobs state) state (0 + place) job := by
    intro place job hjob
    rw [Nat.zero_add]
    exact admits_alone hcell hjobs place job hjob
  have hrun := (runAll_upholds 0 hadmits).1 place _ (List.getElem?_eq_getElem hlt) job
    (by rwa [Nat.zero_add])
  rw [Nat.zero_add] at hrun
  rw [hrun, List.getElem?_eq_getElem hlt]
  exact ⟨rfl, rfl⟩

theorem runAll_share_beyond (hcell : division.Follows cell) (hjobs : division.Suits jobs)
    {place : Nat} (hplace : jobs.length ≤ place) :
    division.share place (Job.runAll store jobs state).2 = division.share place state := by
  have hadmits : ∀ (place : Nat) job, jobs[place]? = some job →
      division.Admits (division.Alone cell jobs state) state (0 + place) job := by
    intro place job hjob
    rw [Nat.zero_add]
    exact admits_alone hcell hjobs place job hjob
  exact (runAll_upholds 0 hadmits).2 place (Or.inr (by omega))

/-- Where the batch succeeds, every job has succeeded as it does alone. -/
theorem dispatch_alone (hcell : division.Follows cell) (hjobs : division.Suits jobs)
    {schedule : Schedule} {values : List α} {state' : σ}
    (h : dispatch rules store schedule jobs state = (.ok values, state')) :
    values.length = jobs.length ∧
      ∀ place (hlt : place < values.length) job, jobs[place]? = some job →
        job.run cell (division.share place state) =
          (.ok values[place], division.share place state') := by
  obtain ⟨hlength, hposts⟩ := dispatch_ok (admits_alone hcell hjobs) h
  exact ⟨hlength, hposts⟩

/-- **The batch succeeds with the results of the sequence, and only with them.** -/
theorem dispatch_ok_iff (hcell : division.Follows cell) (hjobs : division.Suits jobs)
    {schedule : Schedule} {values : List α} :
    (dispatch rules store schedule jobs state).1 = .ok values ↔
      (Job.runAll store jobs state).1 = values.map .ok := by
  have hforward : ∀ results, (dispatch rules store schedule jobs state).1 = .ok results →
      (Job.runAll store jobs state).1 = results.map .ok := by
    intro results hok
    obtain ⟨hlength, halone⟩ := dispatch_alone hcell hjobs (Prod.ext hok rfl)
    refine List.ext_getElem (by simp [hlength]) ?_
    intro place hplace hplace'
    rw [List.length_map] at hplace'
    have hjob : jobs[place]? = some jobs[place] := List.getElem?_eq_getElem _
    have hsequence := (runAll_alone hcell hjobs state hjob).1
    rw [halone place hplace' _ hjob, List.getElem?_eq_getElem hplace] at hsequence
    rw [Option.some.inj hsequence, List.getElem_map]
  refine ⟨hforward values, ?_⟩
  intro hsequence
  rcases hdispatch : dispatch rules store schedule jobs state with ⟨error | results, state'⟩
  · -- the job that failed would have failed in the sequence, too
    obtain ⟨place, hplace, hpost⟩ := dispatch_error (admits_alone hcell hjobs) hdispatch
    have hjob : jobs[place]? = some jobs[place] := List.getElem?_eq_getElem _
    have houtcome := (runAll_alone hcell hjobs state hjob).1
    rw [hpost _ hjob, hsequence, List.getElem?_map] at houtcome
    obtain ⟨value, -, hvalue⟩ := Option.map_eq_some_iff.mp houtcome
    cases hvalue
  · have hresults := hforward results (by rw [hdispatch])
    rw [hsequence] at hresults
    rw [(List.map_inj_right fun _ _ => Except.ok.inj).mp hresults]

/-- A batch that fails has the failure of a job that fails in the sequence. -/
theorem dispatch_error_mem (hcell : division.Follows cell) (hjobs : division.Suits jobs)
    {schedule : Schedule} {error : AccessError}
    (h : (dispatch rules store schedule jobs state).1 = .error error) :
    ∃ place : Nat, (Job.runAll store jobs state).1[place]? = some (.error error) := by
  obtain ⟨place, hplace, hpost⟩ :=
    dispatch_error (admits_alone hcell hjobs) (Prod.ext h rfl)
  have hjob : jobs[place]? = some jobs[place] := List.getElem?_eq_getElem _
  refine ⟨place, ?_⟩
  rw [(runAll_alone hcell hjobs state hjob).1, hpost _ hjob]

/-- **The batch that succeeds leaves the shares that the sequence leaves.** -/
theorem dispatch_share (hcell : division.Follows cell) (hjobs : division.Suits jobs)
    {schedule : Schedule} {values : List α} {state' : σ}
    (h : dispatch rules store schedule jobs state = (.ok values, state')) (place : Nat) :
    division.share place state' = division.share place (Job.runAll store jobs state).2 := by
  obtain ⟨hlength, halone⟩ := dispatch_alone hcell hjobs h
  by_cases hplace : place < jobs.length
  · have hjob : jobs[place]? = some jobs[place] := List.getElem?_eq_getElem _
    rw [(runAll_alone hcell hjobs state hjob).2, halone place (by omega) _ hjob]
  · rw [runAll_share_beyond hcell hjobs (by omega)]
    have hstate : (Crew.work rules store schedule jobs state).2 = state' := congrArg Prod.snd h
    rw [← hstate]
    exact work_beyond (admits_alone hcell hjobs) (by omega)

end Division

/-! ### In order -/

/-- The arrivals of jobs that come to these results one after another. -/
def Crew.arrivalsFrom (first : Nat) : List α → List (Arrival α)
  | [] => []
  | value :: values => ⟨first, .ok value⟩ :: arrivalsFrom (first + 1) values

theorem Crew.mem_arrivalsFrom (first : Nat) {index : Nat} {values : List α} {value : α}
    (h : values[index]? = some value) :
    ⟨first + index, .ok value⟩ ∈ arrivalsFrom first values := by
  induction values generalizing first index with
  | nil => simp at h
  | cons head values ih =>
    rw [arrivalsFrom, List.mem_cons]
    cases index with
    | zero =>
      obtain rfl := Option.some.inj h
      exact Or.inl rfl
    | succ index =>
      have hplace : first + (index + 1) = first + 1 + index := by omega
      rw [hplace]
      exact Or.inr (ih (first + 1) h)

theorem Crew.firstError_arrivalsFrom (first : Nat) (values : List α) :
    firstError (arrivalsFrom first values) = none := by
  induction values generalizing first with
  | nil => rfl
  | cons value values ih => exact ih (first + 1)

/-- Jobs that wait behind others, none of which has failed, are run one after another. -/
theorem Crew.settleAll_inOrder {jobs : List (Job α)} {values : List α} {state : σ}
    (h : (Job.runAll store jobs state).1 = values.map .ok) (rules : Rules) (done : List (Slot α))
    {arrivals : List (Arrival α)} (harrivals : firstError arrivals = none) :
    let ended := settleAll rules store (List.range' done.length jobs.length)
      ⟨done ++ jobs.map .waiting, arrivals⟩ state
    ended.1.arrivals = arrivals ++ arrivalsFrom done.length values ∧
      ended.2 = (Job.runAll store jobs state).2 := by
  intro ended
  induction jobs generalizing values state done arrivals with
  | nil =>
    obtain rfl : values = [] := by simpa using h
    exact ⟨(List.append_nil _).symm, rfl⟩
  | cons job jobs ih =>
    cases values with
    | nil => cases h
    | cons value values =>
      obtain ⟨hvalue, hrest⟩ := List.cons.inj h
      have hslot : (done ++ (job :: jobs).map Slot.waiting)[done.length]? =
          some (.waiting job) := by simp
      have hmay : ¬ (Crew.mk (done ++ (job :: jobs).map .waiting) arrivals).mayGiveUp rules := by
        intro hmay
        exact hasFailed_iff.mp (Bool.and_eq_true_iff.mp hmay).2 harrivals
      have hset : (done ++ (job :: jobs).map Slot.waiting).set done.length .finished =
          done ++ [.finished] ++ jobs.map .waiting := by simp
      have hnone : firstError (arrivals ++ [⟨done.length, .ok value⟩]) = none := by
        rw [firstError, List.findSome?_append, ← firstError, harrivals]
        rfl
      have hended : ended = settleAll rules store (List.range' (done.length + 1) jobs.length)
          ⟨done ++ [.finished] ++ jobs.map .waiting, arrivals ++ [⟨done.length, .ok value⟩]⟩
          (job.run store state).2 := by
        simp only [ended, List.length_cons, List.range'_succ, settleAll, settle, hslot,
          if_neg hmay, arrive, hset, hvalue]
      have hnext := ih hrest (done ++ [.finished]) hnone
      rw [List.length_append, List.length_singleton, ← hended, List.append_assoc] at hnext
      exact hnext

/-- **Jobs that succeed one after another succeed as a batch that keeps to their order**,
with the same results and the same state, on any store. -/
theorem dispatch_inOrder {jobs : List (Job α)} {values : List α} {state : σ}
    (h : (Job.runAll store jobs state).1 = values.map .ok) (rules : Rules) :
    dispatch rules store [] jobs state = (.ok values, (Job.runAll store jobs state).2) := by
  have hlength : jobs.length = values.length := by
    rw [← Job.length_runAll store jobs state, h, List.length_map]
  have hnone : firstError ([] : List (Arrival α)) = none := rfl
  obtain ⟨harrivals, hstate⟩ := Crew.settleAll_inOrder h rules [] hnone
  have hwork : Crew.work rules store [] jobs state = Crew.settleAll rules store
      (List.range' 0 jobs.length) ⟨[] ++ jobs.map .waiting, []⟩ state := by
    simp only [Crew.work, Crew.finish, Crew.follow, Crew.ofJobs, List.length_map,
      List.range_eq_range', List.nil_append]
  rw [List.length_nil, ← hwork] at harrivals hstate
  rw [dispatch_eq, hstate, hlength]
  have hnodup := (Crew.work_tracks rules store [] jobs state).nodup
  rw [harrivals, List.nil_append] at hnodup ⊢
  refine Prod.ext (collect_eq_ok hnodup (Crew.firstError_arrivalsFrom 0 values) ?_) rfl
  intro place hlt
  have hmem := Crew.mem_arrivalsFrom 0 (List.getElem?_eq_getElem hlt)
  rwa [Nat.zero_add] at hmem

end ChunkedArray
