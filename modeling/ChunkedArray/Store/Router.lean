import ChunkedArray.Store.Job

/-!
# ChunkedArray.Store.Router

A store chosen by its first key. A key begins with `memory://` or `file://`; the
first such key fixes whether values are held in memory or in files, and keys of
the other kind are refused from then on. That holds even where the first key
goes on to name nothing that could be stored.

Slashes at the front of a path do not count. Files lie under one directory: the
outermost one if the first path begins with a slash, else the working directory.
Later paths are taken under that same directory however they begin.
-/

namespace ChunkedArray

/-- Where the values are held. -/
inductive Backend
  /-- No key has decided yet. -/
  | unopened
  /-- In memory, by path. -/
  | memory (values : Entries String Bytes)
  /-- In files under a directory. -/
  | filesystem (root : FilePath)
  deriving Repr

/-- A store chosen by its first key, among the files of a machine. -/
structure Router where
  backend : Backend := .unopened
  files : FileTree := {}
  workingDirectory : FilePath := []
  deriving Repr

/-- The kinds of keys. -/
inductive Scheme
  | memory
  | file
  deriving DecidableEq, Repr

namespace Scheme

/-- What the keys of a kind begin with. -/
def mark : Scheme → String
  | memory => "memory://"
  | file => "file://"

/-- The kind of a key and the path behind its mark. -/
def ofKey? (key : String) : Option (Scheme × List Char) :=
  let path? (scheme : Scheme) := scheme.mark.toList.isPrefixOf? key.toList
  ((path? memory).map (memory, ·)).or ((path? file).map (file, ·))

end Scheme

namespace Router

/-! ### Paths -/

/-- The names of a path, which slashes keep apart. -/
def pathNames : List Char → List (List Char)
  | [] => [[]]
  | '/' :: rest => [] :: pathNames rest
  | char :: rest =>
    match pathNames rest with
    | name :: names => (char :: name) :: names
    | [] => [[char]]

/-- Can the path name a value? It then has a name, and none of its names is
empty. -/
def validPath (path : List Char) : Bool := (pathNames path).all (· ≠ [])

/-- A path without the slashes at its front. -/
def trimSlashes (path : List Char) : List Char := path.dropWhile (· = '/')

/-- The file of a path. -/
def fileNames (path : List Char) : FilePath := (pathNames path).map String.ofList

/-! ### Opening and routing -/

/-- The backend after a key of some kind, whose path is given as it stands. -/
def opened (router : Router) (scheme : Scheme) (path : List Char) : Backend :=
  match router.backend, scheme with
  | .unopened, .memory => .memory {}
  | .unopened, .file =>
    .filesystem (if path.head? = some '/' then [] else router.workingDirectory)
  | backend, _ => backend

/-- A value of the open backend. -/
inductive Target
  | inMemory (values : Entries String Bytes) (path : String)
  | inFile (root names : FilePath)
  deriving Repr

/-- The value that a key names in a backend. -/
def target (backend : Backend) (key : String) (scheme : Scheme) (path : List Char) :
    Outcome Target :=
  let trimmed := trimSlashes path
  let valid := validPath trimmed
  let invalid := AccessError.invalidChunk key (.invalidPath (String.ofList trimmed))
  match backend, scheme with
  | .memory values, .memory =>
    if valid then .ok (.inMemory values (String.ofList trimmed)) else .error invalid
  | .filesystem root, .file =>
    if valid then .ok (.inFile root (fileNames trimmed)) else .error invalid
  | _, _ => .error (.storeChanged key)

/-- The value that a key names, and the router with the backend that it opens. -/
def route (router : Router) (key : String) : Outcome Target × Router :=
  match Scheme.ofKey? key with
  | none => (.error (.unsupportedStore key), router)
  | some (scheme, path) =>
    let backend := router.opened scheme path
    (target backend key scheme path, { router with backend })

/-! ### Calls -/

/-- A file error as a failure of a call. -/
def fileError (key : String) (error : FileError) : AccessError := .store key (.file error)

/-- Parts of a value. -/
def read (router : Router) (key : String) (ranges : List ByteRange) :
    Target → Outcome (Option (List Bytes))
  | .inMemory values path =>
    match values.get? path with
    | none => .ok none
    | some value =>
      ((ByteRange.extract value ranges).mapError fun error =>
        .store key (.memoryRange error)).map some
  | .inFile root names => (router.files.read root names ranges).mapError (fileError key)

/-- Puts a value. -/
def write (router : Router) (key : String) (value : Bytes) : Target → Outcome Unit × Router
  | .inMemory values path =>
    (.ok (), { router with backend := .memory (values.insert path value) })
  | .inFile root names =>
    let (files, outcome) := router.files.write root names value
    (outcome.mapError (fileError key), { router with files })

/-- Removes a value. -/
def remove (router : Router) (key : String) : Target → Outcome Unit × Router
  | .inMemory values path =>
    (.ok (), { router with backend := .memory (values.erase path) })
  | .inFile root names =>
    let (files, outcome) := router.files.remove root names
    (outcome.mapError (fileError key), { router with files })

/-- The range of a whole value. -/
def wholeValue : List ByteRange := [.fromStart 0 none]

/-- The answer to a call. -/
def answer (call : StoreCall) (router : Router) : Outcome call.Answer × Router :=
  match router.route call.key with
  | (.error error, router) => (.error error, router)
  | (.ok target, router) =>
    match call with
    | .get key => ((router.read key wholeValue target).map fun parts =>
        parts.map List.flatten, router)
    | .getPartial key ranges => (router.read key ranges target, router)
    | .set key value => router.write key value target
    | .erase key => router.remove key target

/-- The store that a router is. -/
def store : Store Router := ⟨answer⟩

/-! ### Text -/

/-- The kind of a backend. -/
def kind : Backend → String
  | .unopened => "unopened"
  | .memory _ => "memory"
  | .filesystem _ => "filesystem"

/-- A router as a text. -/
def text (router : Router) : String :=
  let backend := kind router.backend
  s!"StoreRouter \x7b store: \"{backend}\" \x7d"

example : validPath "a/b".toList = true := by decide
example : validPath "a//b".toList = false := by decide
example : validPath [] = false := by decide
example : text {} = "StoreRouter \x7b store: \"unopened\" \x7d" := by decide

end Router

end ChunkedArray
