import ChunkedArray.Store.Router

/-!
# ChunkedArray.Proofs.Store.Files

Which files the calls of a router act on whose keys are all file keys.

A path that begins with a slash means a file under the outermost directory, any other
path one under the working directory (`Router.rootOf`). The router looks at this for its
first key only and trims the slashes of all of them, so every call acts under the
directory of the first one (`Router.calls_share_root`): on its own file where the two
directories are the same, and on another one where they are not
(`Router.not_calls_on_own_files`).
-/

namespace ChunkedArray

/-- The state of a store after some calls. -/
def Store.after {σ : Type} (store : Store σ) (calls : List StoreCall) (state : σ) : σ :=
  calls.foldl (fun state call => (store.answer call state).2) state

/-- The key of the call is a file key with the path. -/
def StoreCall.OnFile (call : StoreCall) (path : List Char) : Prop :=
  Scheme.ofKey? call.key = some (.file, path)

namespace Router

/-- The directory that a path is meant under. -/
def rootOf (workingDirectory : FilePath) (path : List Char) : FilePath :=
  if path.head? = some '/' then [] else workingDirectory

/-- The answer to a call on the file with some names under a directory, and the files as
the call leaves them. -/
def callFile (root names : FilePath) :
    (call : StoreCall) → FileTree → Outcome call.Answer × FileTree
  | .get key, files =>
    (((files.read root names wholeValue).mapError (fileError key)).map fun parts =>
      parts.map List.flatten, files)
  | .getPartial key ranges, files =>
    ((files.read root names ranges).mapError (fileError key), files)
  | .set key value, files =>
    let (files, outcome) := files.write root names value
    (outcome.mapError (fileError key), files)
  | .erase key, files =>
    let (files, outcome) := files.remove root names
    (outcome.mapError (fileError key), files)

/-- The answer to a call on the file of a path under a directory, and the files as the call
leaves them. A path that names no file is refused. -/
def callPath (root : FilePath) (path : List Char) (call : StoreCall) (files : FileTree) :
    Outcome call.Answer × FileTree :=
  if validPath (trimSlashes path) then callFile root (fileNames (trimSlashes path)) call files
  else (.error (.invalidChunk call.key (.invalidPath (String.ofList (trimSlashes path)))), files)

/-- The router answers the call as the file of the path under the directory does, and
leaves the same files. -/
def ActsUnder (router : Router) (call : StoreCall) (root : FilePath) (path : List Char) : Prop :=
  ((router.answer call).1, (router.answer call).2.files) = callPath root path call router.files

/-! ### One call -/

variable {router : Router} {call : StoreCall} {root : FilePath}
  {path : List Char}

theorem opened_of_unopened (h : router.backend = .unopened) (path : List Char) :
    router.opened .file path = .filesystem (rootOf router.workingDirectory path) := by
  simp only [opened, h, rootOf]

theorem opened_of_filesystem (h : router.backend = .filesystem root) (path : List Char) :
    router.opened .file path = .filesystem root := by
  simp only [opened, h]

/-- A call on a file key acts under the directory of the open backend, and leaves it open. -/
theorem answer_under (hcall : call.OnFile path)
    (hopened : router.opened .file path = .filesystem root) :
    router.ActsUnder call root path ∧ (router.answer call).2.backend = .filesystem root := by
  have hroute : router.route call.key =
      (target (.filesystem root) call.key .file path,
        { router with backend := .filesystem root }) := by
    rw [route, hcall]
    simp only [hopened]
  by_cases hvalid : validPath (trimSlashes path)
  · have htarget : target (.filesystem root) call.key .file path =
        .ok (.inFile root (fileNames (trimSlashes path))) := by
      simp only [target, hvalid, if_true]
    simp only [ActsUnder, callPath, answer, hroute, htarget, hvalid, if_true]
    cases call with
    | get key | getPartial key ranges | set key value | erase key => exact ⟨rfl, rfl⟩
  · have htarget : target (.filesystem root) call.key .file path = .error
        (.invalidChunk call.key (.invalidPath (String.ofList (trimSlashes path)))) := by
      simp only [target, hvalid, Bool.false_eq_true, if_false]
    simp only [ActsUnder, callPath, answer, hroute, htarget, hvalid, Bool.false_eq_true, if_false,
      and_self]

/-! ### A sequence of calls -/

/-- Once a directory is open, it stays so. -/
theorem backend_after {calls : List StoreCall} (hcalls : ∀ call ∈ calls, ∃ path, call.OnFile path)
    (h : router.backend = .filesystem root) :
    (store.after calls router).backend = .filesystem root := by
  induction calls generalizing router with
  | nil => exact h
  | cons call calls ih =>
    obtain ⟨path, hcall⟩ := hcalls call (by simp)
    refine ih (fun other hother => hcalls other (by simp [hother])) ?_
    exact (answer_under hcall (opened_of_filesystem h path)).2

/-- **All calls act under the directory of the first one.** Of a sequence of calls with file
keys on a fresh router, every call acts on its path under the directory that the first path
is meant under. So it acts on its own file if its own path is meant under the same
directory, in particular if all paths begin with a slash or none does. -/
theorem calls_share_root (files : FileTree) (workingDirectory : FilePath)
    {calls before after : List StoreCall} {call : StoreCall} {path firstPath : List Char}
    (hcalls : ∀ call ∈ calls, ∃ path, call.OnFile path)
    (hfirst : ∃ first ∈ calls.head?, first.OnFile firstPath)
    (hsplit : calls = before ++ call :: after) (hcall : call.OnFile path) :
    let router := store.after before { files, workingDirectory }
    router.ActsUnder call (rootOf workingDirectory firstPath) path ∧
      (rootOf workingDirectory path = rootOf workingDirectory firstPath →
        router.ActsUnder call (rootOf workingDirectory path) path) := by
  intro router
  have hacts : router.ActsUnder call (rootOf workingDirectory firstPath) path := by
    subst hsplit
    cases before with
    | nil =>
      -- the call is the first one and opens the directory itself
      obtain ⟨first, hhead, hpath⟩ := hfirst
      obtain rfl : call = first := Option.some.inj hhead
      obtain rfl : path = firstPath := by
        rw [StoreCall.OnFile, hcall] at hpath
        exact congrArg Prod.snd (Option.some.inj hpath)
      exact (answer_under hcall (opened_of_unopened rfl path)).1
    | cons first before =>
      obtain ⟨other, hhead, hpath⟩ := hfirst
      obtain rfl : first = other := Option.some.inj hhead
      have hopen : ((store.answer first { files, workingDirectory }).2).backend =
          .filesystem (rootOf workingDirectory firstPath) :=
        (answer_under hpath (opened_of_unopened rfl firstPath)).2
      have hbefore : ∀ call ∈ before, ∃ path, call.OnFile path :=
        fun other hother => hcalls other (by simp [hother])
      exact (answer_under hcall (opened_of_filesystem (backend_after hbefore hopen) path)).1
  refine ⟨hacts, ?_⟩
  intro hsame
  rw [hsame]
  exact hacts

/-! ### A relative path and an absolute one -/

/-- The files of a machine where nothing is but the working directory. -/
def emptyHome : FileTree := ⟨Entries.empty.insert ["home"] .directory⟩

/-- The router with a value put under a relative path, the first one. -/
def homed : Router :=
  store.after [.set "file://a" [1]] { files := emptyHome, workingDirectory := ["home"] }

/-- The value is asked for under the absolute path and under its own one. -/
def mixed : List StoreCall := [.set "file://a" [1], .get "file:///a", .get "file://a"]

theorem mixed_onFile : ∀ call ∈ mixed, ∃ path, call.OnFile path := by
  rw [mixed, List.forall_mem_cons, List.forall_mem_cons, List.forall_mem_singleton]
  exact ⟨⟨['a'], rfl⟩, ⟨['/', 'a'], rfl⟩, ⟨['a'], rfl⟩⟩

/-- Both calls act under the working directory, so the value is returned for the absolute
path, too, where no file is. -/
theorem mixed_shares_root :
    homed.ActsUnder (.get "file:///a") ["home"] ['/', 'a'] ∧
      (homed.answer (.get "file:///a")).1 = .ok (some [1]) ∧
      (callPath [] ['/', 'a'] (.get "file:///a") homed.files).1 = .ok none ∧
      homed.ActsUnder (.get "file://a") (rootOf ["home"] ['a']) ['a'] := by
  have habsolute : mixed = [.set "file://a" [1]] ++ .get "file:///a" :: [.get "file://a"] := rfl
  have hrelative : mixed = [.set "file://a" [1], .get "file:///a"] ++ .get "file://a" :: [] := rfl
  have hfirst : ∃ first ∈ mixed.head?, first.OnFile ['a'] := ⟨.set "file://a" [1], rfl, rfl⟩
  refine ⟨?_, rfl, rfl, ?_⟩
  · exact (calls_share_root emptyHome ["home"] mixed_onFile hfirst habsolute rfl).1
  · exact (calls_share_root emptyHome ["home"] mixed_onFile hfirst hrelative rfl).2 rfl

/-- A call does not always act on its own file, even if it succeeds. -/
theorem not_calls_on_own_files :
    ¬ ∀ (files : FileTree) (workingDirectory : FilePath) (calls : List StoreCall),
      (∀ call ∈ calls, ∃ path, call.OnFile path) →
      ∀ before call after, calls = before ++ call :: after →
        ∀ path value, call.OnFile path →
          let router := store.after before { files, workingDirectory }
          (router.answer call).1 = .ok value →
            router.ActsUnder call (rootOf workingDirectory path) path := by
  intro h
  have hacts := h emptyHome ["home"] mixed mixed_onFile [.set "file://a" [1]]
    (.get "file:///a") [.get "file://a"] rfl ['/', 'a'] (some [1]) rfl rfl
  have hanswer : (Except.ok (some [1]) : Outcome (Option Bytes)) = .ok none :=
    congrArg Prod.fst hacts
  cases hanswer

end Router

end ChunkedArray
