import ChunkedArray.Proofs.Pipeline.Collect
import ChunkedArray.Proofs.Store.Cell

/-!
# ChunkedArray.Proofs.Pipeline.Division

Jobs that do not get into each other's way.

A `Division` shares the state of a store out among the places of a crew, so that a
call of one job is answered from its own share and leaves the other shares alone.
Under a division every job keeps the contract that it has on its own share
(`Job.Ensures`), in whatever order the calls of the jobs are made: this is
`work_upholds`, and `dispatch_ok` and `dispatch_error` say it of the results of a
batch.

`Division.byKey` is the division for jobs that work on keys of their own. Several of
them may read the same key, as long as no other kind of call is made on it.
`Division.alone` is the one for a single job that has a key to itself, among others of
which no more is known than that they leave the key alone.
-/

namespace ChunkedArray

variable {α σ γ : Type} {rules : Rules} {store : Store σ}

/-- A way to share the state of a store out among the jobs of a crew. -/
structure Division (store : Store σ) (γ : Type) where
  /-- The part of the state that the job at a place works on. -/
  share : Nat → σ → γ
  /-- The calls that the job at a place may make. -/
  may : Nat → StoreCall → Prop
  /-- How calls are answered from a share. -/
  answers : Answering γ
  own : ∀ {place call}, may place call → ∀ state, answers call (share place state)
    (store.answer call state).1 (share place (store.answer call state).2)
  others : ∀ {place other call}, may place call → other ≠ place → ∀ state,
    share other (store.answer call state).2 = share other state

namespace Division

/-- The division in which nothing is known of the state: any call may be made, and
answered in any way. -/
def trivial (store : Store σ) : Division store Unit where
  share _ _ := ()
  may _ _ := True
  answers _ _ _ _ := True
  own _ _ := True.intro
  others _ _ _ := rfl

/-- What is stored under the key at a place, if there is one. -/
def shareAt (value : σ → String → Cell) (keys : List String) (place : Nat) (state : σ) : Cell :=
  keys[place]?.elim none (value state)

theorem shareAt_eq {keys : List String} {place : Nat} {key : String}
    (h : keys[place]? = some key) (value : σ → String → Cell) (state : σ) :
    shareAt value keys place state = value state key := by
  rw [shareAt, h, Option.elim_some]

/-- The division by keys, one for each place. A key that stands at several places is only
read. -/
def byKey {value : σ → String → Cell} {answers : Answering Cell}
    (hkeeps : store.Keeps value answers) (hread : answers.KeepsOnRead) (keys : List String) :
    Division store Cell where
  share := shareAt value keys
  may place call := keys[place]? = some call.key ∧
    (call.isRead ∨ ∀ other, other ≠ place → keys[other]? ≠ some call.key)
  answers := answers
  own := by
    rintro place call ⟨hkey, -⟩ state
    rw [shareAt_eq hkey, shareAt_eq hkey]
    exact hkeeps.own call state
  others := by
    rintro place other call ⟨hkey, hmode⟩ hne state
    cases hother : keys[other]? with
    | none => simp only [shareAt, hother, Option.elim_none]
    | some key =>
      rw [shareAt_eq hother, shareAt_eq hother]
      by_cases hsame : key = call.key
      · -- the keys are the same, so the call is a read
        subst hsame
        rcases hmode with hcall | halone
        · exact hread hcall (hkeeps.own call state)
        · exact absurd hother (halone other hne)
      · exact hkeeps.others call state key hsame

/-- The answers to the calls of one job, as the cell that it has to itself gives them. Other
jobs have no cell, and nothing is known of the answers to theirs. -/
def aloneAnswers (answers : Answering Cell) : Answering (Option Cell) :=
  fun call share answer after => match share, after with
    | some cell, some cell' => answers call cell answer cell'
    | none, none => True
    | _, _ => False

/-- The division in which the job at a place has a key to itself. -/
def alone {value : σ → String → Cell} {answers : Answering Cell}
    (hkeeps : store.Keeps value answers) (place : Nat) (key : String) :
    Division store (Option Cell) where
  share other state := if other = place then some (value state key) else none
  may other call := call.key = key ↔ other = place
  answers := aloneAnswers answers
  own := by
    intro other call hmay state
    by_cases heq : other = place
    · obtain rfl := hmay.mpr heq
      simp only [if_pos heq]
      exact hkeeps.own call state
    · simp only [if_neg heq]
      exact True.intro
  others := by
    intro caller other call hmay hne state
    by_cases heq : other = place
    · have hkey : key ≠ call.key := fun hsame => hne (heq.trans (hmay.mp hsame.symm).symm)
      simp only [if_pos heq, hkeeps.others call state key hkey]
    · simp only [if_neg heq]

theorem share_alone {value : σ → String → Cell} {answers : Answering Cell}
    (hkeeps : store.Keeps value answers) (place : Nat) (key : String) (state : σ) :
    (alone hkeeps place key).share place state = some (value state key) :=
  if_pos rfl

theorem ensures_alone {answers : Answering Cell} {post : Outcome α → Cell → Prop} {job : Job α}
    {cell : Cell} (h : job.Ensures answers post cell) :
    job.Ensures (aloneAnswers answers) (fun outcome share => ∀ after, share = some after →
      post outcome after) (some cell) := by
  induction job generalizing cell with
  | done outcome =>
    rintro after ⟨⟩
    exact h
  | ask call next ih =>
    rintro answer (_ | after) hans
    · exact hans.elim
    · exact ih answer (h answer after hans)

/-- What a job has to fulfil at a place to have its contract kept there: it makes only
the calls that it may, and from its share on it ensures the contract. -/
def Admits (division : Division store γ) (post : Nat → Outcome α → γ → Prop) (state : σ)
    (place : Nat) (job : Job α) : Prop :=
  job.CallsOnly (division.may place) ∧
    job.Ensures division.answers (post place) (division.share place state)

end Division

/-- What a slot says of the contract of its job and of the share of the job. A share
that no job has worked on is as it was at the start. -/
def Division.Upholds (division : Division store γ) (post : Nat → Outcome α → γ → Prop)
    (start state : σ) (arrivals : List (Arrival α)) (place : Nat) : Option (Slot α) → Prop
  | some (.waiting job) => division.Admits post state place job ∧
      division.share place state = division.share place start
  | some (.working job) => division.Admits post state place job
  | some .finished => ∃ outcome, ⟨place, outcome⟩ ∈ arrivals ∧
      post place outcome (division.share place state)
  | some .abandoned | none => division.share place state = division.share place start

namespace Division

variable {division : Division store γ} {post : Nat → Outcome α → γ → Prop} {start : σ}

/-- What a slot says stays true as long as its share stays the same. -/
theorem Upholds.frame {state state' : σ} {arrivals arrivals' : List (Arrival α)} {place : Nat}
    {slot : Option (Slot α)} (h : division.Upholds post start state arrivals place slot)
    (hshare : division.share place state' = division.share place state)
    (harrivals : ∀ arrival ∈ arrivals, arrival ∈ arrivals') :
    division.Upholds post start state' arrivals' place slot := by
  cases slot with
  | none => exact hshare.trans h
  | some slot =>
    cases slot with
    | waiting job =>
      refine ⟨?_, hshare.trans h.2⟩
      rw [Admits, hshare]
      exact h.1
    | working job =>
      rw [Upholds, Admits, hshare]
      exact h
    | finished =>
      obtain ⟨outcome, hmem, hpost⟩ := h
      refine ⟨outcome, harrivals _ hmem, ?_⟩
      rw [hshare]
      exact hpost
    | abandoned => exact hshare.trans h

/-- A step of one job keeps what all slots say. -/
theorem Upholds.step {crew crew' : Crew α} {state state' : σ}
    (h : ∀ place : Nat,
      division.Upholds post start state crew.arrivals place crew.slots[place]?)
    (hstep : Crew.Step rules store (crew, state) (crew', state')) (place : Nat) :
    division.Upholds post start state' crew'.arrivals place crew'.slots[place]? := by
  cases hstep with
  | @start _ _ own job hslot =>
    have hown := h own
    rw [hslot] at hown
    by_cases heq : place = own
    · rw [heq, Crew.setSlot_own hslot]
      exact hown.1
    · rw [Crew.setSlot_other crew heq]
      exact h place
  | @call _ _ own call next hslot =>
    have hown := h own
    rw [hslot] at hown
    obtain ⟨⟨hmay, hnext⟩, hens⟩ := hown
    by_cases heq : place = own
    · rw [heq, Crew.setSlot_own hslot]
      exact ⟨hnext _, hens _ _ (division.own hmay state)⟩
    · rw [Crew.setSlot_other crew heq]
      exact (h place).frame (division.others hmay heq state) (fun _ hmem => hmem)
  | @arrive _ _ own outcome hslot =>
    have hown := h own
    rw [hslot] at hown
    by_cases heq : place = own
    · rw [heq, Crew.arrive_own hslot]
      exact ⟨outcome, by simp, hown.2⟩
    · rw [Crew.arrive_other crew heq]
      exact (h place).frame rfl (fun _ hmem => by simp [hmem])
  | @giveUp _ _ own job hslot hmay =>
    have hown := h own
    rw [hslot] at hown
    by_cases heq : place = own
    · rw [heq, Crew.setSlot_own hslot]
      exact hown.2
    · rw [Crew.setSlot_other crew heq]
      exact h place

variable {jobs : List (Job α)} {state : σ}

/-- **Jobs that do not get into each other's way keep their contracts**, whatever the
schedule, the number of workers and the policy are. -/
theorem work_upholds (rules : Rules)
    (hjobs : ∀ (place : Nat) job, jobs[place]? = some job → division.Admits post state place job)
    (schedule : Schedule) (place : Nat) :
    division.Upholds post state (Crew.work rules store schedule jobs state).2
      (Crew.work rules store schedule jobs state).1.arrivals place
      (Crew.work rules store schedule jobs state).1.slots[place]? := by
  refine Crew.finish_induction (motive := fun crew state' => ∀ place : Nat,
    division.Upholds post state state' crew.arrivals place crew.slots[place]?)
    (fun place => ?_) (fun h hstep => Upholds.step h hstep) schedule place
  simp only [Crew.ofJobs, List.getElem?_map]
  cases hjob : jobs[place]? with
  | none => rfl
  | some job => exact ⟨hjobs place job hjob, rfl⟩

/-- What a job leaves behind if its outcome has arrived. -/
theorem work_arrived
    (hjobs : ∀ (place : Nat) job, jobs[place]? = some job → division.Admits post state place job)
    {schedule : Schedule} {place : Nat} {outcome : Outcome α}
    (hmem : ⟨place, outcome⟩ ∈ (Crew.work rules store schedule jobs state).1.arrivals) :
    post place outcome (division.share place (Crew.work rules store schedule jobs state).2) := by
  have htracks := Crew.work_tracks rules store schedule jobs state
  have hholds := work_upholds rules hjobs schedule place
  rw [(htracks.finished place).mpr ⟨outcome, hmem⟩] at hholds
  obtain ⟨other, hother, hpost⟩ := hholds
  rw [htracks.arrival_unique hmem hother]
  exact hpost

/-- The share of a job whose outcome has not arrived is as it was. -/
theorem work_absent
    (hjobs : ∀ (place : Nat) job, jobs[place]? = some job → division.Admits post state place job)
    {schedule : Schedule} {place : Nat}
    (habsent : ∀ outcome,
      ⟨place, outcome⟩ ∉ (Crew.work rules store schedule jobs state).1.arrivals) :
    division.share place (Crew.work rules store schedule jobs state).2 =
      division.share place state := by
  have htracks := Crew.work_tracks rules store schedule jobs state
  have hholds := work_upholds rules hjobs schedule place
  by_cases hlt : place < jobs.length
  · rcases Crew.work_over rules store schedule jobs state hlt with
      ⟨outcome, hmem⟩ | habandoned
    · exact absurd hmem (habsent outcome)
    · rw [habandoned] at hholds
      exact hholds
  · rw [List.getElem?_eq_none (by rw [htracks.length]; omega)] at hholds
    exact hholds

theorem work_beyond
    (hjobs : ∀ (place : Nat) job, jobs[place]? = some job → division.Admits post state place job)
    {schedule : Schedule} {place : Nat} (hplace : jobs.length ≤ place) :
    division.share place (Crew.work rules store schedule jobs state).2 =
      division.share place state := by
  refine work_absent hjobs ?_
  intro outcome hmem
  have htracks := Crew.work_tracks rules store schedule jobs state
  have hslot := (htracks.finished place).mpr ⟨outcome, hmem⟩
  have hlt := (List.getElem?_eq_some_iff.mp hslot).1
  rw [htracks.length] at hlt
  omega

/-- In a batch that succeeds, every job has kept its contract. -/
theorem dispatch_ok
    (hjobs : ∀ (place : Nat) job, jobs[place]? = some job → division.Admits post state place job)
    {schedule : Schedule} {values : List α} {state' : σ}
    (h : dispatch rules store schedule jobs state = (.ok values, state')) :
    values.length = jobs.length ∧ ∀ place (hlt : place < values.length),
      post place (.ok values[place]) (division.share place state') := by
  obtain rfl : (Crew.work rules store schedule jobs state).2 = state' := congrArg Prod.snd h
  rcases dispatch_cases rules store schedule jobs state with
    ⟨error, place, herror, -⟩ | ⟨results, hok, hlength, hresults⟩
  · rw [h] at herror
    cases herror
  · obtain rfl : values = results := by
      rw [h] at hok
      exact Except.ok.inj hok
    exact ⟨hlength, fun place hlt => work_arrived hjobs (hresults place hlt)⟩

/-- In a batch that fails, some job has failed with the error of the batch and kept its
contract in doing so. -/
theorem dispatch_error
    (hjobs : ∀ (place : Nat) job, jobs[place]? = some job → division.Admits post state place job)
    {schedule : Schedule} {error : AccessError} {state' : σ}
    (h : dispatch rules store schedule jobs state = (.error error, state')) :
    ∃ place, place < jobs.length ∧ post place (.error error) (division.share place state') := by
  obtain rfl : (Crew.work rules store schedule jobs state).2 = state' := congrArg Prod.snd h
  have htracks := Crew.work_tracks rules store schedule jobs state
  rcases dispatch_cases rules store schedule jobs state with
    ⟨failure, place, herror, hmem⟩ | ⟨results, hok, -⟩
  · obtain rfl : error = failure := by
      rw [h] at herror
      exact Except.error.inj herror
    have hslot := (htracks.finished place).mpr ⟨_, hmem⟩
    have hlt := (List.getElem?_eq_some_iff.mp hslot).1
    exact ⟨place, htracks.length ▸ hlt, work_arrived hjobs hmem⟩
  · rw [h] at hok
    cases hok

end Division

end ChunkedArray
