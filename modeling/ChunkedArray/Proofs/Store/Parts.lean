import ChunkedArray.Proofs.Outcome
import ChunkedArray.Store.Router
import ChunkedArray.Store.Table

/-!
# ChunkedArray.Proofs.Store.Parts

Parts of values, as stores give them.

A store that cuts parts (`Store.CutsParts`) answers a call for parts with what a call for the
whole value would let one cut out. Most stores do just that (`Store.cutting`, of which tables
are an example). A router reads the parts alone, from memory or from a file, with the same
result (`Router.store_cutsParts`).
-/

namespace ChunkedArray

/-- Asking for parts of a value is asking for the value and cutting the parts from it. No
value is longer than a file can be. -/
structure Store.CutsParts {σ : Type} (store : Store σ) : Prop where
  absent : ∀ key ranges state, (store.answer (.get key) state).1 = .ok none →
    (store.answer (.getPartial key ranges) state).1 = .ok none
  present : ∀ key ranges state value, (store.answer (.get key) state).1 = .ok (some value) →
    value.length ≤ FileTree.largestOffset → (∀ range ∈ ranges, range.within value.length) →
    (store.answer (.getPartial key ranges) state).1 =
      .ok (some (ranges.map (ByteRange.slice value)))

/-! ### Stores that cut the parts themselves -/

section Cutting

variable {σ : Type}

/-- The store that asks for a value and cuts the parts from it. -/
def Store.cutting (store : Store σ) : Store σ where
  answer
    | .getPartial key ranges, state =>
      let (answer, after) := store.answer (.get key) state
      (answer >>= fun value => match value with
        | none => .ok none
        | some value => (Table.parts key ranges value).map some, after)
    | .get key, state => store.answer (.get key) state
    | .set key value, state => store.answer (.set key value) state
    | .erase key, state => store.answer (.erase key) state

theorem Store.cutting_cutsParts (store : Store σ) : store.cutting.CutsParts where
  absent key ranges state h := by
    have hanswer : (store.answer (.get key) state).1 = .ok none := h
    simp only [cutting, hanswer]
    rfl
  present key ranges state value h _ hwithin := by
    have hanswer : (store.answer (.get key) state).1 = .ok (some value) := h
    have hparts : ByteRange.extract value ranges = .ok (ranges.map (ByteRange.slice value)) :=
      ByteRange.extract_eq_ok.mpr ⟨hwithin, rfl⟩
    simp only [cutting, hanswer, Table.parts]
    show (((ByteRange.extract value ranges).mapError _).map some) = _
    rw [hparts]
    rfl

/-- A table is such a store. -/
theorem Table.store_cutting (refuses : Verb → String → Bool) :
    (Table.store refuses).cutting = Table.store refuses := by
  refine congrArg Store.mk (funext fun call => funext fun table => ?_)
  cases call with
  | getPartial key ranges =>
    simp only [store, answer]
    cases refuses .get key with
    | true => rfl
    | false => cases table.values.get? key <;> rfl
  | get key | set key value | erase key => rfl

theorem Table.store_cutsParts (refuses : Verb → String → Bool) :
    (Table.store refuses).CutsParts := by
  rw [← Table.store_cutting]
  exact Store.cutting_cutsParts _

end Cutting

/-! ### Routers -/

namespace FileTree

/-- A range inside of a file is read as it stands, unless the file is longer than offsets
go. -/
theorem readRange_within {content : Bytes} (hlength : content.length ≤ largestOffset)
    {range : ByteRange} (h : range.within content.length) :
    readRange (.file content) range = .ok (range.slice content) := by
  unfold readRange
  split
  next node offset =>
    simp only [ByteRange.within, Option.getD_some, decide_eq_true_eq] at h
    rw [if_neg (by omega)]
    rfl
  next => simp [ByteRange.slice]
  next hfile => cases hfile
  next hfile => cases hfile
  next content' offset hfile =>
    obtain rfl := FileNode.file.inj hfile
    simp only [ByteRange.within, Option.getD_none, decide_eq_true_eq] at h
    rw [if_neg (by omega)]
    rfl
  next content' offset length hzero hfile =>
    obtain rfl := FileNode.file.inj hfile
    simp only [ByteRange.within, Option.getD_some, decide_eq_true_eq] at h
    rw [if_neg (by omega), if_pos h]
    rfl
  next content' length hzero hfile =>
    obtain rfl := FileNode.file.inj hfile
    simp only [ByteRange.within, decide_eq_true_eq] at h
    rw [if_neg (by omega)]
    rfl

variable {tree : FileTree} {start names : FilePath}

/-- Where reading some parts of a file finds none, reading others does not either. -/
theorem read_absent {ranges : List ByteRange} (h : tree.read start names ranges = .ok none)
    (others : List ByteRange) : tree.read start names others = .ok none := by
  simp only [read, Outcome.bind_eq_ok] at h ⊢
  obtain ⟨⟨⟩, hpath, h⟩ := h
  refine ⟨(), hpath, ?_⟩
  cases hfind : tree.find start names with
  | error error =>
    rw [hfind] at h
    cases error with
    | notFound => rfl
    | _ => cases h
  | ok node =>
    -- a node that is found is read or refused
    rw [hfind] at h
    obtain ⟨parts, -, hparts⟩ := Outcome.bind_eq_ok.mp h
    cases hparts

/-- Once a whole file has been read, its parts are read as they are cut from it. -/
theorem read_present {parts : List Bytes}
    (h : tree.read start names [.fromStart 0 none] = .ok (some parts))
    (hlength : parts.flatten.length ≤ largestOffset) {ranges : List ByteRange}
    (hwithin : ∀ range ∈ ranges, range.within parts.flatten.length) :
    tree.read start names ranges = .ok (some (ranges.map (ByteRange.slice parts.flatten))) := by
  simp only [read, Outcome.bind_eq_ok] at h ⊢
  obtain ⟨⟨⟩, hpath, h⟩ := h
  refine ⟨(), hpath, ?_⟩
  cases hfind : tree.find start names with
  | error error =>
    rw [hfind] at h
    cases error <;> cases h
  | ok node =>
    rw [hfind] at h
    obtain ⟨parts', hread, hparts⟩ := Outcome.bind_eq_ok.mp h
    obtain rfl : parts' = parts := by injection hparts with hparts; exact Option.some.inj hparts
    cases node with
    | directory => cases hread
    | file content =>
      obtain rfl : [content] = parts' := Except.ok.inj hread
      rw [List.flatten_singleton] at hlength hwithin ⊢
      have hranges : ranges.mapM (readRange (.file content)) =
          .ok (ranges.map (ByteRange.slice content)) := by
        rw [Outcome.mapM_eq_ok, List.forall₂_map_right_iff, List.forall₂_same]
        exact fun range hrange => readRange_within hlength (hwithin range hrange)
      simp only [hranges]
      rfl

end FileTree

namespace Router

variable {router : Router} {key : String} {target : Target}

theorem answer_get (router : Router) (key : String) :
    (router.answer (.get key)).1 = (router.route key).1 >>= fun target =>
      ((router.route key).2.read key wholeValue target).map fun parts =>
        parts.map List.flatten := by
  simp only [answer, StoreCall.key]
  rcases router.route key with ⟨error | target, opened⟩ <;> rfl

theorem answer_getPartial (router : Router) (key : String) (ranges : List ByteRange) :
    (router.answer (.getPartial key ranges)).1 = (router.route key).1 >>= fun target =>
      (router.route key).2.read key ranges target := by
  simp only [answer, StoreCall.key]
  rcases router.route key with ⟨error | target, opened⟩ <;> rfl

/-- Parts of a value in memory are cut from it. -/
theorem read_inMemory {values : Entries String Bytes} {path : String} {value : Bytes}
    (h : values.get? path = some value) {ranges : List ByteRange}
    (hwithin : ∀ range ∈ ranges, range.within value.length) :
    router.read key ranges (.inMemory values path) =
      .ok (some (ranges.map (ByteRange.slice value))) := by
  have hranges : ByteRange.extract value ranges = .ok (ranges.map (ByteRange.slice value)) :=
    ByteRange.extract_eq_ok.mpr ⟨hwithin, rfl⟩
  simp only [read, h, hranges]
  rfl

theorem read_absent {ranges : List ByteRange} (h : router.read key ranges target = .ok none)
    (others : List ByteRange) : router.read key others target = .ok none := by
  cases target with
  | inMemory values path =>
    simp only [read] at h ⊢
    cases hvalue : values.get? path with
    | none => rfl
    | some value =>
      rw [hvalue] at h
      obtain ⟨parts, -, hparts⟩ := Outcome.map_eq_ok.mp h
      cases hparts
  | inFile root names =>
    rw [read, Outcome.mapError_eq_ok] at h ⊢
    exact FileTree.read_absent h others

theorem read_present {parts : List Bytes}
    (h : router.read key wholeValue target = .ok (some parts))
    (hlength : parts.flatten.length ≤ FileTree.largestOffset) {ranges : List ByteRange}
    (hwithin : ∀ range ∈ ranges, range.within parts.flatten.length) :
    router.read key ranges target = .ok (some (ranges.map (ByteRange.slice parts.flatten))) := by
  cases target with
  | inMemory values path =>
    simp only [read] at h
    cases hvalue : values.get? path with
    | none =>
      rw [hvalue] at h
      cases h
    | some value =>
      rw [hvalue] at h
      obtain ⟨parts', hextract, hparts⟩ := Outcome.map_eq_ok.mp h
      obtain rfl := Option.some.inj hparts
      rw [Outcome.mapError_eq_ok] at hextract
      obtain ⟨-, rfl⟩ := ByteRange.extract_eq_ok.mp hextract
      have hwhole : (wholeValue.map (ByteRange.slice value)).flatten = value :=
        List.flatten_singleton
      rw [hwhole] at hwithin ⊢
      exact read_inMemory hvalue hwithin
  | inFile root names =>
    rw [read, Outcome.mapError_eq_ok] at h ⊢
    exact FileTree.read_present h hlength hwithin

/-- **A router cuts parts**, whether its values are in memory or in files. -/
theorem store_cutsParts : store.CutsParts where
  absent key ranges router h := by
    have hget : (router.answer (.get key)).1 = .ok none := h
    show (router.answer (.getPartial key ranges)).1 = _
    rw [answer_get] at hget
    obtain ⟨target, htarget, hwhole⟩ := Outcome.bind_eq_ok.mp hget
    obtain ⟨found, hread, hparts⟩ := Outcome.map_eq_ok.mp hwhole
    rw [Option.map_eq_none_iff.mp hparts] at hread
    rw [answer_getPartial, Outcome.bind_eq_ok]
    exact ⟨target, htarget, read_absent hread ranges⟩
  present key ranges router value h hlength hwithin := by
    have hget : (router.answer (.get key)).1 = .ok (some value) := h
    show (router.answer (.getPartial key ranges)).1 = _
    rw [answer_get] at hget
    obtain ⟨target, htarget, hwhole⟩ := Outcome.bind_eq_ok.mp hget
    obtain ⟨found, hread, hparts⟩ := Outcome.map_eq_ok.mp hwhole
    obtain ⟨parts, rfl, rfl⟩ := Option.map_eq_some_iff.mp hparts
    rw [answer_getPartial, Outcome.bind_eq_ok]
    exact ⟨target, htarget, read_present hread hlength hwithin⟩

end Router

end ChunkedArray
