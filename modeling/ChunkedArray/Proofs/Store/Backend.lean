import ChunkedArray.Proofs.Store.Cell
import ChunkedArray.Proofs.Store.Files
import ChunkedArray.Proofs.Store.Parts
import Mathlib.Data.List.Basic

/-!
# ChunkedArray.Proofs.Store.Backend

What a router is after any sequence of calls.

The first call with a key of some kind opens a backend (`opening`), and none of the later
calls opens another one. A router in memory holds under each path what the last call on the
path has left there (`heldValue`), where the slashes at the front of a path do not count
and a call with a key that names no value is not on any path. `Backend.Reflects` says both of
a backend and the calls before; one call keeps it (`answer_reflects`), so it holds after all
of them (`after_reflects`). `keeps_first_backend` tells from it how the next call is
answered.
-/

namespace ChunkedArray

/-! ### Paths -/

namespace Router

/-- The path can name a value: it has names, no slash stands at its front or at its end, and
no two slashes follow each other. -/
structure NamesValue (path : List Char) : Prop where
  nonempty : path ≠ []
  front : path.head? ≠ some '/'
  back : path.getLast? ≠ some '/'
  apart : ¬ ['/', '/'] <:+: path

theorem pathNames_of_ne {char : Char} (h : char ≠ '/') (path : List Char) :
    pathNames (char :: path) =
      (char :: (pathNames path).headD []) :: (pathNames path).tail := by
  rw [pathNames]
  · cases pathNames path with
    | nil => rfl
    | cons name names => rfl
  · exact h

/-- The first name of a path is what stands before its first slash. -/
theorem validPath_iff_tail {path : List Char} : validPath path ↔
    path ≠ [] ∧ path.head? ≠ some '/' ∧ (pathNames path).tail.all (· ≠ []) := by
  cases path with
  | nil => simp [validPath, pathNames]
  | cons char path =>
    by_cases hslash : char = '/'
    · subst hslash
      simp [validPath, pathNames]
    · simp [validPath, pathNames_of_ne hslash, hslash]

/-- A name behind a slash is empty where the slash is the last character or another slash
follows. -/
theorem tail_pathNames_iff {path : List Char} : (pathNames path).tail.all (· ≠ []) ↔
    path.getLast? ≠ some '/' ∧ ¬ ['/', '/'] <:+: path := by
  induction path with
  | nil => simp [pathNames]
  | cons char path ih =>
    rw [List.getLast?_cons, List.infix_cons_iff, List.cons_prefix_cons]
    by_cases hslash : char = '/'
    · subst hslash
      have htail : (pathNames ('/' :: path)).tail.all (· ≠ []) ↔ validPath path := Iff.rfl
      rw [htail, validPath_iff_tail, ih]
      cases path with
      | nil => simp
      | cons next path =>
        rw [List.getLast?_cons]
        simp [List.cons_prefix_cons, eq_comm, and_left_comm]
    · have htail : (pathNames (char :: path)).tail = (pathNames path).tail := by
        rw [pathNames_of_ne hslash, List.tail_cons]
      rw [htail, ih]
      cases path with
      | nil => simp [hslash]
      | cons next path =>
        rw [List.getLast?_cons]
        simp [Ne.symm hslash]

theorem validPath_iff {path : List Char} : validPath path ↔ NamesValue path := by
  rw [validPath_iff_tail, tail_pathNames_iff]
  exact ⟨fun ⟨hnonempty, hfront, hback, hapart⟩ => ⟨hnonempty, hfront, hback, hapart⟩,
    fun h => ⟨h.nonempty, h.front, h.back, h.apart⟩⟩

end Router

/-! ### What calls say of a router -/

/-- The kind of the first key that has one, and the path of this key. -/
def opening (calls : List StoreCall) : Option (Scheme × List Char) :=
  calls.findSome? fun call => Scheme.ofKey? call.key

theorem opening_append (calls : List StoreCall) (call : StoreCall) :
    opening (calls ++ [call]) = (opening calls).or (Scheme.ofKey? call.key) := by
  rw [opening, List.findSome?_append, List.findSome?_singleton]
  rfl

namespace StoreCall

/-- The path in memory that the call is about, without the slashes at its front. -/
def memoryPath? (call : StoreCall) : Option String :=
  match Scheme.ofKey? call.key with
  | some (.memory, path) =>
    if Router.validPath (Router.trimSlashes path) then
      some (String.ofList (Router.trimSlashes path))
    else none
  | _ => none

/-- What the call leaves under a path in memory, if it puts or removes a value there. -/
def change? (path : String) (call : StoreCall) : Option Cell :=
  if call.memoryPath? = some path then
    match call with
    | set _ value => some (some value)
    | erase _ => some none
    | get _ | getPartial .. => none
  else none

theorem change?_of_memoryPath {call : StoreCall} (h : call.memoryPath? = none) (path : String) :
    call.change? path = none := by
  simp [change?, h]

end StoreCall

/-- The value that was last put under a path in memory, if it has not been removed since. -/
def heldValue (calls : List StoreCall) (path : String) : Cell :=
  (calls.reverse.findSome? (StoreCall.change? path)).getD none

theorem heldValue_append (calls : List StoreCall) (call : StoreCall) (path : String) :
    heldValue (calls ++ [call]) path = (call.change? path).getD (heldValue calls path) := by
  rw [heldValue, List.reverse_append, List.reverse_singleton, List.singleton_append,
    List.findSome?_cons]
  cases call.change? path with
  | none => rfl
  | some cell => rfl

/-- Before a backend is open, nothing is held. -/
theorem heldValue_of_unopened {calls : List StoreCall} (h : opening calls = none) (path : String) :
    heldValue calls path = none := by
  have hnone : calls.reverse.findSome? (StoreCall.change? path) = none := by
    rw [List.findSome?_eq_none_iff]
    intro call hcall
    apply StoreCall.change?_of_memoryPath
    simp only [StoreCall.memoryPath?, List.findSome?_eq_none_iff.mp h call (by simpa using hcall)]
  rw [heldValue, hnone]
  rfl

/-- The kind of keys that the backend takes. -/
def Backend.scheme? : Backend → Option Scheme
  | .unopened => none
  | .memory _ => some .memory
  | .filesystem _ => some .file

/-- The value that is held in memory under a path. -/
def Backend.value : Backend → String → Cell
  | .memory values, path => values.get? path
  | .unopened, _ | .filesystem _, _ => none

/-- The backends are both in memory, or in files under the same directory. -/
def Backend.SameKind : Backend → Backend → Prop
  | .unopened, .unopened | .memory _, .memory _ => True
  | .filesystem root, .filesystem other => root = other
  | _, _ => False

/-- The backend is the one that the first key has opened, and holds what the calls have left
in memory. -/
def Backend.Reflects (workingDirectory : FilePath) (calls : List StoreCall) : Backend → Prop
  | .unopened => opening calls = none
  | .memory values => (∃ path, opening calls = some (.memory, path)) ∧
      ∀ path, values.get? path = heldValue calls path
  | .filesystem root => ∃ path, opening calls = some (.file, path) ∧
      root = Router.rootOf workingDirectory path

namespace Backend.Reflects

variable {workingDirectory : FilePath} {calls : List StoreCall} {backend other : Backend}

theorem scheme?_eq (h : backend.Reflects workingDirectory calls) :
    backend.scheme? = (opening calls).map Prod.fst := by
  cases backend with
  | unopened =>
    rw [show opening calls = none from h]
    rfl
  | memory values =>
    obtain ⟨⟨path, hpath⟩, -⟩ := h
    rw [hpath]
    rfl
  | filesystem root =>
    obtain ⟨path, hpath, -⟩ := h
    rw [hpath]
    rfl

/-- A call that opens nothing and leaves nothing in memory changes nothing. -/
theorem append_silent {call : StoreCall} (h : backend.Reflects workingDirectory calls)
    (hopening : opening (calls ++ [call]) = opening calls)
    (hchange : ∀ path, call.change? path = none) :
    backend.Reflects workingDirectory (calls ++ [call]) := by
  have hheld : ∀ path, heldValue (calls ++ [call]) path = heldValue calls path := by
    intro path
    rw [heldValue_append, hchange path]
    rfl
  cases backend with
  | unopened => exact hopening.trans h
  | memory values =>
    refine ⟨hopening ▸ h.1, fun path => ?_⟩
    rw [hheld path, h.2 path]
  | filesystem root =>
    obtain ⟨path, hpath, hroot⟩ := h
    exact ⟨path, hopening.trans hpath, hroot⟩

end Backend.Reflects

namespace Router

variable {router after : Router} {workingDirectory : FilePath} {calls : List StoreCall}
  {call : StoreCall} {scheme : Scheme} {path : List Char} {key : String}
  {values : Entries String Bytes} {root : FilePath} {error : AccessError}

/-! ### Opening -/

theorem opened_ne_unopened (router : Router) (scheme : Scheme) (path : List Char) :
    router.opened scheme path ≠ .unopened := by
  cases hbackend : router.backend <;> cases scheme <;> simp [opened, hbackend]

theorem opened_of_open (h : router.backend ≠ .unopened) (scheme : Scheme) (path : List Char) :
    router.opened scheme path = router.backend := by
  cases hbackend : router.backend with
  | unopened => exact absurd hbackend h
  | memory values => simp [opened, hbackend]
  | filesystem root => simp [opened, hbackend]

/-- A backend in memory is open from a memory key on, and holds what was there before. -/
theorem opened_memory (h : router.backend.Reflects router.workingDirectory calls)
    (hopened : router.opened scheme path = .memory values) :
    (∃ first, (opening calls).or (some (scheme, path)) = some (.memory, first)) ∧
      ∀ other, values.get? other = heldValue calls other := by
  cases hbackend : router.backend with
  | unopened =>
    rw [hbackend] at h
    have hnone : opening calls = none := h
    cases scheme with
    | memory =>
      simp only [opened, hbackend, Backend.memory.injEq] at hopened
      refine ⟨⟨path, by rw [hnone]; rfl⟩, fun other => ?_⟩
      rw [heldValue_of_unopened hnone, ← hopened]
      rfl
    | file => simp [opened, hbackend] at hopened
  | memory held =>
    rw [hbackend] at h
    obtain ⟨⟨first, hfirst⟩, hheld⟩ := h
    rw [opened_of_open (by simp [hbackend]), hbackend, Backend.memory.injEq] at hopened
    exact ⟨⟨first, by rw [hfirst]; rfl⟩, hopened ▸ hheld⟩
  | filesystem root =>
    rw [opened_of_open (by simp [hbackend]), hbackend] at hopened
    cases hopened

theorem opened_filesystem (h : router.backend.Reflects router.workingDirectory calls)
    (hopened : router.opened scheme path = .filesystem root) :
    ∃ first, (opening calls).or (some (scheme, path)) = some (.file, first) ∧
      root = rootOf router.workingDirectory first := by
  cases hbackend : router.backend with
  | unopened =>
    rw [hbackend] at h
    have hnone : opening calls = none := h
    cases scheme with
    | memory => simp [opened, hbackend] at hopened
    | file =>
      rw [opened_of_unopened hbackend, Backend.filesystem.injEq] at hopened
      exact ⟨path, by rw [hnone]; rfl, hopened.symm⟩
  | memory held =>
    rw [opened_of_open (by simp [hbackend]), hbackend] at hopened
    cases hopened
  | filesystem open' =>
    rw [hbackend] at h
    obtain ⟨first, hfirst, hroot⟩ := h
    rw [opened_of_open (by simp [hbackend]), hbackend, Backend.filesystem.injEq] at hopened
    exact ⟨first, by rw [hfirst]; rfl, hopened ▸ hroot⟩

/-! ### One call -/

theorem route_of_key (router : Router) (hkey : Scheme.ofKey? key = some (scheme, path)) :
    router.route key = (target (router.opened scheme path) key scheme path,
      { router with backend := router.opened scheme path }) := by
  rw [route, hkey]

theorem answer_refused (h : router.route call.key = (.error error, after)) :
    router.answer call = (.error error, after) := by
  simp only [answer, h]

/-- A key of no kind is refused. -/
theorem answer_unsupported (hkey : Scheme.ofKey? call.key = none) :
    router.answer call = (.error (.unsupportedStore call.key), router) := by
  apply answer_refused
  rw [route, hkey]

/-- What a call leaves of the values in memory. -/
def leave (path : String) (values : Entries String Bytes) : StoreCall → Entries String Bytes
  | .set _ value => values.insert path value
  | .erase _ => values.erase path
  | .get _ | .getPartial .. => values

theorem answer_inMemory {path : String}
    (h : router.route call.key = (.ok (.inMemory values path), after))
    (hafter : after.backend = .memory values) :
    (router.answer call).2 = { after with backend := .memory (leave path values call) } := by
  obtain ⟨backend, files, directory⟩ := after
  obtain rfl : backend = .memory values := hafter
  simp only [answer, h]
  cases call with
  | get key | getPartial key ranges | set key value | erase key => rfl

theorem get?_leave (path other : String) (values : Entries String Bytes)
    (hpath : call.memoryPath? = some path) :
    (leave path values call).get? other = (call.change? other).getD (values.get? other) := by
  by_cases heq : other = path
  · subst heq
    cases call with
    | get key | getPartial key ranges => simp [leave, StoreCall.change?]
    | set key value => simp [leave, StoreCall.change?, hpath, Entries.get?_insert]
    | erase key => simp [leave, StoreCall.change?, hpath, Entries.get?_erase]
  · have hne : ¬ path = other := fun h => heq h.symm
    cases call with
    | get key | getPartial key ranges => simp [leave, StoreCall.change?]
    | set key value => simp [leave, StoreCall.change?, hpath, Entries.get?_insert, heq, hne]
    | erase key => simp [leave, StoreCall.change?, hpath, Entries.get?_erase, heq, hne]

/-! ### The state after calls -/

theorem answer_workingDirectory (router : Router) (call : StoreCall) :
    (router.answer call).2.workingDirectory = router.workingDirectory := by
  cases hkey : Scheme.ofKey? call.key with
  | none => rw [answer_unsupported hkey]
  | some key =>
    obtain ⟨scheme, path⟩ := key
    have hroute := route_of_key router hkey
    cases htarget : target (router.opened scheme path) call.key scheme path with
    | error error =>
      rw [htarget] at hroute
      rw [answer_refused hroute]
    | ok place =>
      rw [htarget] at hroute
      simp only [answer, hroute]
      cases place <;> cases call <;> rfl

theorem memoryPath?_of_key (hkey : Scheme.ofKey? call.key = some (.memory, path))
    (hvalid : validPath (trimSlashes path)) :
    call.memoryPath? = some (String.ofList (trimSlashes path)) := by
  simp [StoreCall.memoryPath?, hkey, hvalid]

theorem memoryPath?_invalid (hkey : Scheme.ofKey? call.key = some (scheme, path))
    (hvalid : ¬ validPath (trimSlashes path)) : call.memoryPath? = none := by
  cases scheme <;> simp [StoreCall.memoryPath?, hkey, hvalid]

theorem memoryPath?_file (hkey : Scheme.ofKey? call.key = some (.file, path)) :
    call.memoryPath? = none := by
  simp [StoreCall.memoryPath?, hkey]

theorem target_changed {backend : Backend} {chosen : Scheme} (h : backend.scheme? = some chosen)
    (hne : chosen ≠ scheme) : target backend key scheme path = .error (.storeChanged key) := by
  cases backend <;> cases scheme <;> simp_all [target, Backend.scheme?]

theorem target_invalid {backend : Backend} (h : backend.scheme? = some scheme)
    (hvalid : ¬ validPath (trimSlashes path)) : target backend key scheme path =
      .error (.invalidChunk key (.invalidPath (String.ofList (trimSlashes path)))) := by
  cases backend <;> cases scheme <;> simp_all [target, Backend.scheme?]

theorem target_memory (hvalid : validPath (trimSlashes path)) :
    target (.memory values) key .memory path =
      .ok (.inMemory values (String.ofList (trimSlashes path))) := by
  simp [target, hvalid]

/-- One call keeps what the backend says of the calls. -/
theorem answer_reflects (h : router.backend.Reflects router.workingDirectory calls)
    (call : StoreCall) : (router.answer call).2.backend.Reflects router.workingDirectory
      (calls ++ [call]) := by
  cases hkey : Scheme.ofKey? call.key with
  | none =>
    rw [answer_unsupported hkey]
    refine h.append_silent (by rw [opening_append, hkey, Option.or_none]) fun path => ?_
    exact StoreCall.change?_of_memoryPath (by simp [StoreCall.memoryPath?, hkey]) path
  | some parts =>
    obtain ⟨scheme, path⟩ := parts
    have hroute := route_of_key router hkey
    cases hopened : router.opened scheme path with
    | unopened => exact absurd hopened (opened_ne_unopened router scheme path)
    | memory values =>
      rw [hopened] at hroute
      obtain ⟨⟨first, hfirst⟩, hheld⟩ := opened_memory h hopened
      have hopening : opening (calls ++ [call]) = some (.memory, first) := by
        rw [opening_append, hkey, hfirst]
      by_cases hown : scheme = .memory ∧ validPath (trimSlashes path)
      · obtain ⟨rfl, hvalid⟩ := hown
        rw [target_memory hvalid] at hroute
        rw [answer_inMemory hroute rfl]
        refine ⟨⟨first, hopening⟩, fun other => ?_⟩
        rw [get?_leave _ other values (memoryPath?_of_key hkey hvalid), heldValue_append,
          hheld other]
      · -- the call is refused, and names no value in memory
        have hsilent : call.memoryPath? = none := by
          cases scheme with
          | memory => exact memoryPath?_invalid hkey fun hvalid => hown ⟨rfl, hvalid⟩
          | file => exact memoryPath?_file hkey
        have hrefused : ∃ error, target (.memory values) call.key scheme path = .error error := by
          cases scheme with
          | memory => exact ⟨_, target_invalid rfl fun hvalid => hown ⟨rfl, hvalid⟩⟩
          | file => exact ⟨_, target_changed rfl (by decide)⟩
        obtain ⟨error, herror⟩ := hrefused
        rw [herror] at hroute
        rw [answer_refused hroute]
        refine ⟨⟨first, hopening⟩, fun other => ?_⟩
        rw [heldValue_append, StoreCall.change?_of_memoryPath hsilent, hheld other]
        rfl
    | filesystem root =>
      obtain ⟨first, hfirst, hroot⟩ := opened_filesystem h hopened
      have hopening : opening (calls ++ [call]) = some (.file, first) := by
        rw [opening_append, hkey, hfirst]
      have hbackend : (router.answer call).2.backend = .filesystem root := by
        cases scheme with
        | memory =>
          rw [hopened, target_changed rfl (by decide)] at hroute
          rw [answer_refused hroute]
        | file => exact (answer_under hkey hopened).2
      rw [hbackend]
      exact ⟨first, hopening, hroot⟩

/-- **After any calls the backend is the one that the first key has opened, with the values
that the calls have left.** -/
theorem after_reflects (h : router.backend.Reflects router.workingDirectory calls)
    (more : List StoreCall) : (store.after more router).backend.Reflects router.workingDirectory
      (calls ++ more) := by
  induction more generalizing calls router with
  | nil => simpa [Store.after] using h
  | cons call more ih =>
    have hstep := answer_reflects h call
    rw [← answer_workingDirectory router call] at hstep
    have hrest := ih hstep
    rw [answer_workingDirectory, List.append_assoc] at hrest
    exact hrest

theorem after_workingDirectory (calls : List StoreCall) (router : Router) :
    (store.after calls router).workingDirectory = router.workingDirectory := by
  induction calls generalizing router with
  | nil => rfl
  | cons call calls ih =>
    show (store.after calls (router.answer call).2).workingDirectory = _
    rw [ih, answer_workingDirectory]

/-- A backend that is open is not changed for another one. -/
theorem after_sameKind (h : router.backend.Reflects router.workingDirectory calls)
    (hopen : opening calls ≠ none) (more : List StoreCall) :
    (store.after more router).backend.SameKind router.backend := by
  have hopening : opening (calls ++ more) = opening calls := by
    obtain ⟨first, hfirst⟩ := Option.ne_none_iff_exists'.mp hopen
    rw [opening, List.findSome?_append, ← opening, hfirst]
    rfl
  have hafter := after_reflects h more
  have hscheme := hafter.scheme?_eq.trans (hopening ▸ h.scheme?_eq.symm)
  cases hbackend : router.backend with
  | unopened =>
    rw [hbackend] at h
    exact absurd h hopen
  | memory values =>
    cases hlast : (store.after more router).backend with
    | memory => trivial
    | unopened | filesystem => simp [hbackend, hlast, Backend.scheme?] at hscheme
  | filesystem root =>
    cases hlast : (store.after more router).backend with
    | unopened | memory => simp [hbackend, hlast, Backend.scheme?] at hscheme
    | filesystem other =>
      rw [hbackend] at h
      rw [hlast] at hafter
      obtain ⟨path, hpath, hroot⟩ := h
      obtain ⟨path', hpath', hother⟩ := hafter
      rw [hopening, hpath, Option.some.injEq, Prod.mk.injEq] at hpath'
      obtain ⟨-, rfl⟩ := hpath'
      exact hother.trans hroot.symm

/-! ### The next call -/

/-- Both routers hold the same values, in memory and in files. -/
def SameValues (router other : Router) : Prop :=
  router.files = other.files ∧ ∀ path, router.backend.value path = other.backend.value path

/-- Opening a backend changes no value. -/
theorem opened_value (router : Router) (scheme : Scheme) (path : List Char) (place : String) :
    (router.opened scheme path).value place = router.backend.value place := by
  cases hbackend : router.backend with
  | unopened => cases scheme <;> simp [opened, hbackend, Backend.value, Entries.get?]
  | memory values => rw [opened_of_open (by simp [hbackend]), hbackend]
  | filesystem root => rw [opened_of_open (by simp [hbackend]), hbackend]

theorem opened_scheme (router : Router) (scheme : Scheme) (path : List Char) :
    (router.opened scheme path).scheme? = router.backend.scheme?.or (some scheme) := by
  cases hbackend : router.backend with
  | unopened => cases scheme <;> simp [opened, hbackend, Backend.scheme?]
  | memory values =>
    rw [opened_of_open (by simp [hbackend]), hbackend]
    rfl
  | filesystem root =>
    rw [opened_of_open (by simp [hbackend]), hbackend]
    rfl

/-- A key of the kind of the backend, or any key if no backend is open. -/
theorem opened_scheme_own (h : ∀ chosen ∈ router.backend.scheme?, chosen = scheme)
    (path : List Char) : (router.opened scheme path).scheme? = some scheme := by
  rw [opened_scheme]
  cases hscheme : router.backend.scheme? with
  | none => rfl
  | some chosen =>
    rw [h chosen hscheme]
    rfl

/-- A key of the other kind is refused. -/
theorem answer_changed {chosen : Scheme} (hkey : Scheme.ofKey? call.key = some (scheme, path))
    (hchosen : router.backend.scheme? = some chosen) (hne : chosen ≠ scheme) :
    router.answer call = (.error (.storeChanged call.key), router) := by
  have hopened : router.opened scheme path = router.backend := by
    apply opened_of_open
    intro hunopened
    rw [hunopened] at hchosen
    cases hchosen
  have hroute := route_of_key router hkey
  rw [hopened, target_changed hchosen hne] at hroute
  rw [answer_refused hroute]

/-- A path that names no value is refused. The call may still be the one that opens the
backend. -/
theorem answer_invalid (hkey : Scheme.ofKey? call.key = some (scheme, path))
    (hchosen : ∀ chosen ∈ router.backend.scheme?, chosen = scheme)
    (hinvalid : ¬ validPath (trimSlashes path)) : router.answer call =
      (.error (.invalidChunk call.key (.invalidPath (String.ofList (trimSlashes path)))),
        { router with backend := router.opened scheme path }) := by
  have hroute := route_of_key router hkey
  rw [target_invalid (opened_scheme_own hchosen path) hinvalid] at hroute
  rw [answer_refused hroute]

/-- A call on a path in memory is about the value that is held there. -/
theorem route_memory (h : router.backend.Reflects router.workingDirectory calls)
    (hkey : Scheme.ofKey? key = some (.memory, path))
    (hchosen : ∀ chosen ∈ router.backend.scheme?, chosen = .memory)
    (hvalid : validPath (trimSlashes path)) :
    ∃ values after, router.route key =
        (.ok (.inMemory values (String.ofList (trimSlashes path))), after) ∧
      values.get? (String.ofList (trimSlashes path)) =
        heldValue calls (String.ofList (trimSlashes path)) := by
  have hscheme := opened_scheme_own hchosen path
  have hroute := route_of_key router hkey
  cases hopened : router.opened .memory path with
  | unopened => exact absurd hopened (opened_ne_unopened router .memory path)
  | filesystem root =>
    rw [hopened] at hscheme
    cases hscheme
  | memory values =>
    rw [hopened, target_memory hvalid] at hroute
    exact ⟨values, _, hroute, (opened_memory h hopened).2 _⟩

section Memory

variable {place : String} (h : router.route key = (.ok (.inMemory values place), after))

include h

theorem get_inMemory : (router.answer (.get key)).1 = .ok (values.get? place) := by
  rw [answer_get, h]
  show (after.read key wholeValue (.inMemory values place)).map _ = _
  cases hvalue : values.get? place with
  | none =>
    simp only [read, hvalue]
    rfl
  | some value =>
    rw [read_inMemory hvalue (by simp [wholeValue, ByteRange.within])]
    exact congrArg (Except.ok ∘ some) List.flatten_singleton

theorem getPartial_inMemory (ranges : List ByteRange) :
    (router.answer (.getPartial key ranges)).1 =
      after.read key ranges (.inMemory values place) := by
  rw [answer_getPartial, h]
  rfl

theorem set_inMemory (value : Bytes) : (router.answer (.set key value)).1 = .ok () := by
  simp only [answer, StoreCall.key, h]
  rfl

theorem erase_inMemory : (router.answer (.erase key)).1 = .ok () := by
  simp only [answer, StoreCall.key, h]
  rfl

end Memory

/-- **A router keeps the backend of its first key.** Whatever the calls before are, the
backend is the one that the first key of some kind has opened, and stays it. A key of no
kind, a key of the other kind and a path that names no value are refused, and then no value
changes. In memory every other call is one on the finite map of the values that were put
last under each path, without the slashes at its front, and not removed since. -/
theorem keeps_first_backend (files : FileTree) (workingDirectory : FilePath)
    (calls : List StoreCall) :
    let router := store.after calls { files, workingDirectory }
    let chosen := (opening calls).map Prod.fst
    router.backend.Reflects workingDirectory calls ∧
    (opening calls ≠ none → ∀ more, (store.after more router).backend.SameKind router.backend) ∧
    (∀ call, Scheme.ofKey? call.key = none →
      router.answer call = (.error (.unsupportedStore call.key), router)) ∧
    (∀ call scheme path, Scheme.ofKey? call.key = some (scheme, path) →
      (∀ other, chosen = some other → other ≠ scheme →
        router.answer call = (.error (.storeChanged call.key), router)) ∧
      ((∀ other ∈ chosen, other = scheme) → ¬ NamesValue (trimSlashes path) →
        (router.answer call).1 =
            .error (.invalidChunk call.key (.invalidPath (String.ofList (trimSlashes path)))) ∧
          (router.answer call).2.SameValues router)) ∧
    ∀ key path, Scheme.ofKey? key = some (.memory, path) → (∀ other ∈ chosen, other = .memory) →
      NamesValue (trimSlashes path) →
      let held := heldValue calls (String.ofList (trimSlashes path))
      (router.answer (.get key)).1 = .ok held ∧
      (∀ ranges, held = none → (router.answer (.getPartial key ranges)).1 = .ok none) ∧
      (∀ ranges value, held = some value → (∀ range ∈ ranges, range.within value.length) →
        (router.answer (.getPartial key ranges)).1 =
          .ok (some (ranges.map (ByteRange.slice value)))) ∧
      (∀ value, (router.answer (.set key value)).1 = .ok ()) ∧
      (router.answer (.erase key)).1 = .ok () := by
  intro router chosen
  have hdirectory : router.workingDirectory = workingDirectory := after_workingDirectory calls _
  have hreflects : router.backend.Reflects router.workingDirectory calls := by
    have hfresh : Backend.Reflects workingDirectory [] .unopened := rfl
    rw [hdirectory]
    exact @after_reflects { files, workingDirectory } [] hfresh calls
  have hchosen : router.backend.scheme? = chosen := hreflects.scheme?_eq
  refine ⟨hdirectory ▸ hreflects, after_sameKind hreflects, fun call => answer_unsupported,
    ?_, ?_⟩
  · intro call scheme path hkey
    refine ⟨fun other hother => answer_changed hkey (hchosen.trans hother), ?_⟩
    intro hown hinvalid
    rw [answer_invalid hkey (hchosen ▸ hown) fun hvalid => hinvalid (validPath_iff.mp hvalid)]
    exact ⟨rfl, rfl, opened_value router scheme path⟩
  · intro key path hkey hown hvalid held
    obtain ⟨values, after, hroute, hheld⟩ :=
      route_memory hreflects hkey (hchosen ▸ hown) (validPath_iff.mpr hvalid)
    refine ⟨?_, ?_, ?_, set_inMemory hroute, erase_inMemory hroute⟩
    · rw [get_inMemory hroute, hheld]
    · intro ranges hnone
      rw [getPartial_inMemory hroute]
      simp only [read, hheld.trans hnone]
    · intro ranges value hvalue hwithin
      rw [getPartial_inMemory hroute]
      exact read_inMemory (hheld.trans hvalue) hwithin

/-- Calls with keys of all sorts. The first memory key is that of `a`, under another name. -/
def assorted : List StoreCall :=
  [.get "a", .set "memory:///a" [1, 2], .set "memory://b" [3], .set "file://a" [4],
    .erase "memory:////b", .set "memory://a/" [5], .erase "memory://c"]

/-- After them `a` holds its value and `b` holds none, and keys that cannot be taken are
refused. -/
theorem assorted_keeps_memory :
    let router := store.after assorted {}
    (router.answer (.get "memory://a")).1 = .ok (some [1, 2]) ∧
      (router.answer (.getPartial "memory:///a" [.suffix 1])).1 = .ok (some [[2]]) ∧
      (router.answer (.get "memory://b")).1 = .ok none ∧
      router.answer (.erase "file:///a") = (.error (.storeChanged "file:///a"), router) ∧
      (router.answer (.erase "memory://")).1 =
        .error (.invalidChunk "memory://" (.invalidPath "")) ∧
      (store.after [.set "file://b" [6]] router).backend.SameKind router.backend := by
  intro router
  have hopening : opening assorted = some (.memory, ['/', 'a']) := rfl
  have hchosen : (opening assorted).map Prod.fst = some .memory := by rw [hopening, Option.map_some]
  have hown : ∀ other ∈ (opening assorted).map Prod.fst, other = Scheme.memory := by
    intro other hother
    exact (Option.some.inj (hchosen.symm.trans hother)).symm
  obtain ⟨-, hkind, -, hrefused, hmemory⟩ := keeps_first_backend {} [] assorted
  have hnames : ∀ name : Char, name ≠ '/' → NamesValue [name] := by
    intro name hname
    refine validPath_iff.mp ?_
    simp [validPath, pathNames_of_ne hname, pathNames]
  refine ⟨?_, ?_, ?_, ?_, ?_, ?_⟩
  · exact (hmemory "memory://a" ['a'] rfl hown (hnames 'a' (by decide))).1
  · exact (hmemory "memory:///a" ['/', 'a'] rfl hown (hnames 'a' (by decide))).2.2.1 _ [1, 2] rfl
      (by decide)
  · exact (hmemory "memory://b" ['b'] rfl hown (hnames 'b' (by decide))).1
  · exact (hrefused _ .file ['/', 'a'] rfl).1 .memory hchosen (by decide)
  · exact ((hrefused _ .memory [] rfl).2 hown fun hnames => hnames.nonempty rfl).1
  · exact hkind (by simp [hopening]) _

end Router

end ChunkedArray
