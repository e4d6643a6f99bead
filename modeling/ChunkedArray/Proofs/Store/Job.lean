import ChunkedArray.Store.Job

/-!
# ChunkedArray.Proofs.Store.Job

What can be said of a job without knowing the store that it will run on.

* `Job.CallsOnly`: the calls that the job can come to make, whatever the answers
  to earlier ones are.
* `Job.Ensures`: what holds of its outcome and of the part of the state that it
  works on, for every way in which its calls can be answered. This is a weakest
  precondition; `ensures_bind` and `ensures_mono` are its two rules.
* `Job.Commits`: the job gives up at the first call that fails, and is over with
  the first call that changes anything. Such a job either does nothing or all of
  its work.
-/

namespace ChunkedArray

/-- Does the call leave the values of a store as they are? -/
def StoreCall.isRead : StoreCall → Bool
  | get _ | getPartial .. => true
  | set .. | erase _ => false

/-- The answers that a part of a state admits to a call, each with the part as the
call leaves it. -/
abbrev Answering (γ : Type) := (call : StoreCall) → γ → Outcome call.Answer → γ → Prop

/-- The answers that a store gives to a call. -/
def Store.answering {σ : Type} (store : Store σ) : Answering σ :=
  fun call state answer after => store.answer call state = (answer, after)

namespace Job

variable {α β γ σ : Type}

/-! ### The calls of a job -/

/-- The job makes no other calls than those it may. -/
def CallsOnly (may : StoreCall → Prop) : Job α → Prop
  | done _ => True
  | ask call next => may call ∧ ∀ answer, CallsOnly may (next answer)

/-- The job reads one key and does nothing else to the store. -/
def ReadsOnly (key : String) : Job α → Prop :=
  CallsOnly fun call => call.key = key ∧ call.isRead

theorem callsOnly_of_forall {may : StoreCall → Prop} (h : ∀ call, may call) (job : Job α) :
    job.CallsOnly may := by
  induction job with
  | done outcome => trivial
  | ask call next ih => exact ⟨h call, ih⟩

theorem callsOnly_mono {may must : StoreCall → Prop} (himp : ∀ call, may call → must call)
    {job : Job α} (h : job.CallsOnly may) : job.CallsOnly must := by
  induction job with
  | done outcome => trivial
  | ask call next ih => exact ⟨himp call h.1, fun answer => ih answer (h.2 answer)⟩

theorem callsOnly_bind {may : StoreCall → Prop} {job : Job α} {next : α → Job β}
    (h : job.CallsOnly may) (hnext : ∀ value, (next value).CallsOnly may) :
    (job.bind next).CallsOnly may := by
  induction job with
  | done outcome =>
    cases outcome with
    | ok value => exact hnext value
    | error error => trivial
  | ask call answered ih => exact ⟨h.1, fun answer => ih answer (h.2 answer)⟩

theorem callsOnly_bind_ofOutcome {may : StoreCall → Prop} {outcome : Outcome α}
    {next : α → Job β} (hnext : ∀ value, (next value).CallsOnly may) :
    ((ofOutcome outcome).bind next).CallsOnly may :=
  callsOnly_bind True.intro hnext

@[simp] theorem callsOnly_ofCall (may : StoreCall → Prop) (call : StoreCall) :
    (ofCall call).CallsOnly may ↔ may call := by
  simp [ofCall, CallsOnly]

/-! ### The contract of a job -/

/-- Whatever the answers to its calls are, what holds of the outcome of the job and of
the part of the state that it works on. -/
def Ensures (answers : Answering γ) (post : Outcome α → γ → Prop) : Job α → γ → Prop
  | done outcome, share => post outcome share
  | ask call next, share => ∀ answer after,
      answers call share answer after → Ensures answers post (next answer) after

theorem ensures_mono {answers : Answering γ} {post weaker : Outcome α → γ → Prop}
    (himp : ∀ outcome share, post outcome share → weaker outcome share) {job : Job α} {share : γ}
    (h : job.Ensures answers post share) : job.Ensures answers weaker share := by
  induction job generalizing share with
  | done outcome => exact himp outcome share h
  | ask call next ih => exact fun answer after hans => ih answer (h answer after hans)

theorem ensures_of_forall {answers : Answering γ} {post : Outcome α → γ → Prop}
    (h : ∀ outcome share, post outcome share) (job : Job α) (share : γ) :
    job.Ensures answers post share := by
  induction job generalizing share with
  | done outcome => exact h outcome share
  | ask call next ih => exact fun answer after _ => ih answer after

theorem ensures_and {answers : Answering γ} {post other : Outcome α → γ → Prop} {job : Job α}
    {share : γ} (h : job.Ensures answers post share) (hother : job.Ensures answers other share) :
    job.Ensures answers (fun outcome after => post outcome after ∧ other outcome after) share := by
  induction job generalizing share with
  | done outcome => exact ⟨h, hother⟩
  | ask call next ih =>
    exact fun answer after hans => ih answer (h answer after hans) (hother answer after hans)

/-- What a job ensures for some answers, it ensures for fewer of them. -/
theorem ensures_restrict {answers fewer : Answering γ} {post : Outcome α → γ → Prop}
    (himp : ∀ call share answer after, fewer call share answer after →
      answers call share answer after) {job : Job α} {share : γ}
    (h : job.Ensures answers post share) : job.Ensures fewer post share := by
  induction job generalizing share with
  | done outcome => exact h
  | ask call next ih =>
    exact fun answer after hans => ih answer (h answer after (himp call share answer after hans))

theorem ensures_bind {answers : Answering γ} {post : Outcome β → γ → Prop} {job : Job α}
    {next : α → Job β} {share : γ}
    (h : job.Ensures answers (fun outcome after => match outcome with
      | .ok value => (next value).Ensures answers post after
      | .error error => post (.error error) after) share) :
    (job.bind next).Ensures answers post share := by
  induction job generalizing share with
  | done outcome => cases outcome <;> exact h
  | ask call answered ih => exact fun answer after hans => ih answer (h answer after hans)

@[simp] theorem ensures_ofOutcome (answers : Answering γ) (post : Outcome α → γ → Prop)
    (outcome : Outcome α) (share : γ) :
    (ofOutcome outcome).Ensures answers post share ↔ post outcome share := Iff.rfl

@[simp] theorem ensures_ofCall (answers : Answering γ) (call : StoreCall)
    (post : Outcome call.Answer → γ → Prop) (share : γ) :
    (ofCall call).Ensures answers post share ↔
      ∀ answer after, answers call share answer after → post answer after := Iff.rfl

/-- On the part of the state that answers as a store does, the job does what it does
alone on that store. -/
theorem ensures_run (store : Store γ) (job : Job α) (share : γ) :
    job.Ensures store.answering (fun outcome after => job.run store share = (outcome, after))
      share := by
  induction job generalizing share with
  | done outcome => rfl
  | ask call next ih =>
    intro answer after hans
    have hnext := ih answer after
    simp only [Store.answering] at hans
    simpa only [run_ask, hans] using hnext

/-- A sequence of jobs succeeds if each of them does. -/
theorem run_bind_eq_ok {store : Store σ} {job : Job α} {next : α → Job β} {state final : σ}
    {result : β} (h : (job.bind next).run store state = (.ok result, final)) :
    ∃ value between, job.run store state = (.ok value, between) ∧
      (next value).run store between = (.ok result, final) := by
  rw [run_bind] at h
  rcases hjob : job.run store state with ⟨error | value, between⟩
  · rw [hjob] at h
    cases h
  · rw [hjob] at h
    exact ⟨value, between, rfl, h⟩

/-! ### Jobs that do all or nothing -/

/-- The job gives up when a call fails, and ends with the first call that is not a
read. -/
def Commits : Job α → Prop
  | done _ => True
  | ask call next =>
    (∀ error, ∃ failure, next (.error error) = done (.error failure)) ∧
      if call.isRead then ∀ answer, Commits (next (.ok answer))
      else ∀ answer, ∃ value, next (.ok answer) = done (.ok value)

/-- Reading first and committing then is committing. -/
theorem commits_bind {job : Job α} {next : α → Job β} {key : String} (hread : job.ReadsOnly key)
    (h : job.Commits) (hnext : ∀ value, (next value).Commits) : (job.bind next).Commits := by
  induction job with
  | done outcome =>
    cases outcome with
    | ok value => exact hnext value
    | error error => trivial
  | ask call answered ih =>
    obtain ⟨hfail, hgo⟩ := h
    rw [if_pos hread.1.2] at hgo
    refine ⟨fun error => ?_, ?_⟩
    · obtain ⟨failure, hfailure⟩ := hfail error
      exact ⟨failure, by simp only [hfailure, bind_done_error]⟩
    · rw [if_pos hread.1.2]
      exact fun answer => ih _ (hread.2 _) (hgo answer)

theorem commits_bind_ofOutcome {outcome : Outcome α} {next : α → Job β}
    (hnext : ∀ value, (next value).Commits) : ((ofOutcome outcome).bind next).Commits := by
  cases outcome with
  | ok value => exact hnext value
  | error error => trivial

theorem commits_ofCall (call : StoreCall) : (ofCall call).Commits := by
  refine ⟨fun error => ⟨error, rfl⟩, ?_⟩
  split
  · exact fun answer => trivial
  · exact fun answer => ⟨answer, rfl⟩

end Job

end ChunkedArray
