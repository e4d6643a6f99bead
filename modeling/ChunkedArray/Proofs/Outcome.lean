import ChunkedArray.Error
import Mathlib.Data.List.Forall2

/-!
# ChunkedArray.Proofs.Outcome

When a sequence of steps that may fail goes well: each step has its result, at the same
place. Where it fails, its error is that of the first step that fails. This holds for errors
of any kind `ε`.
-/

namespace ChunkedArray

namespace Outcome

variable {ε α β : Type}

theorem ok_bind (value : α) (next : α → Except ε β) : (.ok value >>= next) = next value := rfl

theorem bind_eq_ok {outcome : Except ε α} {next : α → Except ε β} {result : β} :
    (outcome >>= next) = .ok result ↔ ∃ value, outcome = .ok value ∧ next value = .ok result := by
  cases outcome with
  | ok value => exact ⟨fun h => ⟨value, rfl, h⟩, fun ⟨_, rfl, h⟩ => h⟩
  | error error =>
    refine ⟨fun h => ?_, fun ⟨_, h, _⟩ => ?_⟩
    · cases h
    · cases h

theorem pure_eq_ok {value result : α} :
    (pure value : Except ε α) = .ok result ↔ value = result :=
  ⟨Except.ok.inj, congrArg Except.ok⟩

theorem map_eq_ok {outcome : Except ε α} {f : α → β} {result : β} :
    outcome.map f = .ok result ↔ ∃ value, outcome = .ok value ∧ f value = result := by
  cases outcome with
  | ok value =>
    show Except.ok (f value) = .ok result ↔ _
    simp
  | error error =>
    show Except.error error = .ok result ↔ _
    simp

theorem mapError_eq_ok {ε' : Type} {change : ε → ε'} {outcome : Except ε α} {value : α} :
    outcome.mapError change = .ok value ↔ outcome = .ok value := by
  cases outcome with
  | ok result =>
    show Except.ok result = .ok value ↔ _
    simp
  | error error =>
    show Except.error (change error) = .ok value ↔ _
    simp

theorem ofProduct_eq_ok {product : Option α} {value : α} :
    ofProduct product = .ok value ↔ product = some value := by
  cases product <;> simp [ofProduct]

theorem ofProduct_eq_error {product : Option α} {error : AccessError} :
    ofProduct product = .error error ↔ product = none ∧ error = .overflow := by
  cases product <;> simp [ofProduct, eq_comm]

/-- A list of steps goes well if each of them does. -/
theorem mapM_eq_ok {step : α → Except ε β} {items : List α} {results : List β} :
    items.mapM step = .ok results ↔
      List.Forall₂ (fun item result => step item = .ok result) items results := by
  induction items generalizing results with
  | nil =>
    rw [List.mapM_nil, pure_eq_ok]
    constructor
    · rintro rfl
      exact List.Forall₂.nil
    · rintro ⟨⟩
      rfl
  | cons item items ih =>
    simp only [List.mapM_cons, bind_eq_ok, pure_eq_ok, ih]
    constructor
    · rintro ⟨result, hitem, rest, hrest, rfl⟩
      exact List.Forall₂.cons hitem hrest
    · rintro (_ | ⟨hitem, hrest⟩)
      exact ⟨_, hitem, _, hrest, rfl⟩

theorem bind_eq_error {outcome : Except ε α} {next : α → Except ε β} {error : ε} :
    (outcome >>= next) = .error error ↔
      outcome = .error error ∨ ∃ value, outcome = .ok value ∧ next value = .error error := by
  cases outcome with
  | ok value =>
    show next value = .error error ↔ _
    simp
  | error other =>
    show Except.error other = .error error ↔ _
    simp

/-- A list of steps fails with the error of the first of them that fails. -/
theorem exists_of_mapM_eq_error {step : α → Except ε β} {items : List α} {error : ε}
    (h : items.mapM step = .error error) :
    ∃ before item after, items = before ++ item :: after ∧
      (∀ other ∈ before, ∃ result, step other = .ok result) ∧ step item = .error error := by
  induction items with
  | nil => cases h
  | cons item items ih =>
    rw [List.mapM_cons, bind_eq_error] at h
    rcases h with hitem | ⟨result, hitem, hrest⟩
    · exact ⟨[], item, items, rfl, nofun, hitem⟩
    · rcases bind_eq_error.mp hrest with hrest | ⟨results, -, hpure⟩
      · obtain ⟨before, failed, after, rfl, hbefore, hfailed⟩ := ih hrest
        exact ⟨item :: before, failed, after, rfl,
          List.forall_mem_cons.mpr ⟨⟨result, hitem⟩, hbefore⟩, hfailed⟩
      · cases hpure

theorem mapM_eq_error {step : α → Except ε β} {before after : List α} {item : α} {error : ε}
    (hbefore : ∀ other ∈ before, ∃ result, step other = .ok result)
    (hitem : step item = .error error) : (before ++ item :: after).mapM step = .error error := by
  induction before with
  | nil =>
    rw [List.nil_append, List.mapM_cons, hitem]
    rfl
  | cons other before ih =>
    obtain ⟨⟨result, hother⟩, hrest⟩ := List.forall_mem_cons.mp hbefore
    rw [List.cons_append, List.mapM_cons, hother, ih hrest]
    rfl

theorem forM_eq_ok {step : α → Except ε Unit} {items : List α} :
    items.forM step = .ok () ↔ ∀ item ∈ items, step item = .ok () := by
  induction items with
  | nil => simpa using pure_eq_ok.mpr rfl
  | cons item items ih =>
    show (step item >>= fun _ => items.forM step) = .ok () ↔ _
    rw [bind_eq_ok, List.forall_mem_cons, ← ih]
    exact ⟨fun ⟨_, hitem, hrest⟩ => ⟨hitem, hrest⟩, fun ⟨hitem, hrest⟩ => ⟨(), hitem, hrest⟩⟩

theorem forM_eq_error {step : α → Except ε Unit} {before after : List α} {item : α} {error : ε}
    (hbefore : ∀ other ∈ before, step other = .ok ()) (hitem : step item = .error error) :
    (before ++ item :: after).forM step = .error error := by
  induction before with
  | nil =>
    show (step item >>= fun _ => after.forM step) = .error error
    rw [hitem]
    rfl
  | cons other before ih =>
    obtain ⟨hother, hrest⟩ := List.forall_mem_cons.mp hbefore
    show (step other >>= fun _ => (before ++ item :: after).forM step) = .error error
    rw [hother]
    exact ih hrest

theorem exists_of_forM_eq_error {step : α → Except ε Unit} {items : List α} {error : ε}
    (h : items.forM step = .error error) :
    ∃ before item after, items = before ++ item :: after ∧
      (∀ other ∈ before, step other = .ok ()) ∧ step item = .error error := by
  induction items with
  | nil => cases h
  | cons item items ih =>
    have hsteps : (step item >>= fun _ => items.forM step) = .error error := h
    rcases bind_eq_error.mp hsteps with hitem | ⟨_, hitem, hrest⟩
    · exact ⟨[], item, items, rfl, nofun, hitem⟩
    · obtain ⟨before, failed, after, rfl, hbefore, hfailed⟩ := ih hrest
      exact ⟨item :: before, failed, after, rfl, List.forall_mem_cons.mpr ⟨hitem, hbefore⟩, hfailed⟩

/-- An outcome that has no error has a value. -/
theorem exists_ok_iff {outcome : Except ε α} :
    (∃ value, outcome = .ok value) ↔ ∀ error, outcome ≠ .error error := by
  cases outcome with
  | ok value => simp
  | error error => simp

theorem exists_of_mem_mapM {step : α → Except ε β} {items : List α} {results : List β}
    (h : items.mapM step = .ok results) {result : β} (hmem : result ∈ results) :
    ∃ item ∈ items, step item = .ok result := by
  have hall := mapM_eq_ok.mp h
  clear h
  induction hall with
  | nil => simp at hmem
  | cons hitem hrest ih =>
    rcases List.mem_cons.mp hmem with rfl | hmem
    · exact ⟨_, by simp, hitem⟩
    · obtain ⟨item, hin, hstep⟩ := ih hmem
      exact ⟨item, List.mem_cons_of_mem _ hin, hstep⟩

end Outcome

/-! ### Lists -/

/-- Without duplicates, an item is at one place only. -/
theorem place_unique {α : Type} {items : List α} (hnodup : items.Nodup) {place other : Nat}
    {item : α} (hplace : items[place]? = some item) (hother : items[other]? = some item) :
    other = place := by
  have hlt := (List.getElem?_eq_some_iff.mp hother).1
  exact (List.getElem?_inj hlt hnodup).mp (hother.trans hplace.symm)

section Forall₂

variable {α β γ : Type} {first : List α} {second : List β} {related : α → β → Prop}

theorem exists_of_forall₂ (h : List.Forall₂ related first second) {place : Nat} {item : α}
    (hitem : first[place]? = some item) :
    ∃ other, second[place]? = some other ∧ related item other := by
  induction h generalizing place with
  | nil => simp at hitem
  | @cons item other _ _ hrelated _ ih =>
    cases place with
    | zero =>
      obtain rfl := Option.some.inj hitem
      exact ⟨other, rfl, hrelated⟩
    | succ place => exact ih hitem

theorem map_eq_of_forall₂ {f : α → γ} {g : β → γ} (h : List.Forall₂ related first second)
    (hsame : ∀ item other, related item other → g other = f item) :
    second.map g = first.map f := by
  have hmaps : List.Forall₂ (· = ·) (first.map f) (second.map g) := by
    rw [List.forall₂_map_left_iff, List.forall₂_map_right_iff]
    exact h.imp fun item other hrelated => (hsame item other hrelated).symm
  rw [List.forall₂_eq_eq_eq] at hmaps
  exact hmaps.symm

theorem forall₂_zip_right {third : List γ} {related' : β → γ → Prop}
    (h : List.Forall₂ related first second) (h' : List.Forall₂ related' second third) :
    List.Forall₂ (fun item pair => related item pair.1 ∧ related' pair.1 pair.2) first
      (second.zip third) := by
  induction h generalizing third with
  | nil => exact List.Forall₂.nil
  | cons hrelated _ ih =>
    cases h' with
    | cons hrelated' hrest => exact List.Forall₂.cons ⟨hrelated, hrelated'⟩ (ih hrest)

end Forall₂

end ChunkedArray
