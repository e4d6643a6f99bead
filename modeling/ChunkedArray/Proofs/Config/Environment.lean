import ChunkedArray.Config.Basic
import ChunkedArray.Proofs.Text.Decimal
import Mathlib.Logic.Function.Basic

/-!
# ChunkedArray.Proofs.Config.Environment

How the environment sets the limits of a pipeline.

A setting is given a value by its own variable and by no other: the text of the variable has to
denote the value once it is trimmed, and the value must not be below the minimum of the setting
(`Setting.Given`). Without such a text the setting keeps its default. The number of workers is
computed from two of the settings without leaving the range of a machine word.
-/

namespace ChunkedArray

namespace Setting

/-- The value of the setting. -/
def of (config : Config) : Setting → UInt64
  | ioOversubscription => config.ioOversubscription
  | minWorkers => config.minWorkers
  | maxChunkElements => config.maxChunkElements

/-- The variable of the setting has a text that denotes the value, with blanks around it at most,
and the value is large enough. -/
def Given (setting : Setting) (environment : Environment) (value : UInt64) : Prop :=
  ∃ text core, environment setting.variableName = some text ∧ TrimsTo text.toList core ∧
    Denotes core value.toNat ∧ setting.minimum ≤ value

theorem fromEnvironment_eq_some_iff {setting : Setting} {environment : Environment}
    {value : UInt64} :
    setting.fromEnvironment environment = some value ↔ setting.Given environment value := by
  simp only [fromEnvironment, read, Option.bind_eq_some_iff, Option.filter_eq_some_iff,
    readWord_eq_some_iff, decide_eq_true_eq, Given, ← trimBlanks_eq_iff]
  constructor
  · intro h
    obtain ⟨text, htext, hword, hminimum⟩ := h
    exact ⟨text, _, htext, rfl, hword, hminimum⟩
  · intro h
    obtain ⟨text, core, htext, rfl, hword, hminimum⟩ := h
    exact ⟨text, htext, hword, hminimum⟩

theorem of_fromEnvironment (setting : Setting) (environment : Environment) :
    setting.of (Config.fromEnvironment environment) =
      (setting.fromEnvironment environment).getD (setting.of {}) := by
  cases setting <;> rfl

/-- The variable that names the setting has the value that it is given, or else the default. -/
theorem of_fromEnvironment_eq_iff {setting : Setting} {environment : Environment}
    {value : UInt64} :
    setting.of (Config.fromEnvironment environment) = value ↔ setting.Given environment value ∨
      (∀ other, ¬ setting.Given environment other) ∧ value = setting.of {} := by
  rw [of_fromEnvironment]
  simp only [← fromEnvironment_eq_some_iff]
  cases setting.fromEnvironment environment with
  | none => simp [eq_comm]
  | some given => simp

theorem variableName_injective : Function.Injective variableName := by
  intro setting other hsame
  have hname : setting.name = other.name := by
    have hlist := congrArg String.toList hsame
    rw [variableName, variableName, String.toList_append, String.toList_append] at hlist
    exact String.toList_inj.mp (List.append_cancel_left hlist)
  clear hsame
  cases setting <;> cases other <;> revert hname <;> decide

end Setting

/-! ### Workers -/

theorem toNat_ofNatClamp (n : Nat) : (UInt64.ofNatClamp n).toNat = min (UInt64.size - 1) n := by
  rcases Nat.lt_or_ge n UInt64.size with hsmall | hlarge
  · rw [UInt64.toNat_ofNatClamp_of_lt hsmall]
    omega
  · rw [UInt64.toNat_ofNatClamp_of_le hlarge]
    omega

namespace Config

variable {config : Config}

theorem toNat_workerCount (config : Config) (parallelism : UInt64) :
    (config.workerCount parallelism).toNat = max config.minWorkers.toNat
      (min (UInt64.size - 1) (max parallelism.toNat 1 + config.ioOversubscription.toNat)) := by
  rw [workerCount, UInt64.toNat_max, toNat_ofNatClamp, UInt64.toNat_max, Nat.max_comm]
  rfl

theorem workerCount_pos (config : Config) (parallelism : UInt64) :
    1 ≤ (config.workerCount parallelism).toNat := by
  rw [toNat_workerCount, UInt64.size]
  omega

theorem workerCount_mono {parallelism more : UInt64} (h : parallelism ≤ more) :
    config.workerCount parallelism ≤ config.workerCount more := by
  rw [UInt64.le_iff_toNat_le] at h ⊢
  rw [toNat_workerCount, toNat_workerCount]
  omega

/-! ### Settings from the environment -/

/-- The settings are those that the environment gives. -/
structure ReadFrom (config : Config) (environment : Environment) : Prop where
  /-- A setting has the value that its variable gives to it, and its default if it gives none. -/
  of_eq_iff : ∀ (setting : Setting) (value : UInt64), setting.of config = value ↔
    setting.Given environment value ∨
      (∀ other, ¬ setting.Given environment other) ∧ value = setting.of {}
  /-- What has no variable has its default. -/
  rest_eq : config.validateChecksums = none ∧ config.storeEmptyChunks = true ∧
    config.codecConcurrentTarget = none

/-- **The settings are read from the environment exactly, each from a variable of its own.** So the
number of workers is known for every environment and every machine; there is at least one, and
never fewer on a machine that runs more threads. -/
theorem fromEnvironment_exact (environment : Environment) :
    let config := fromEnvironment environment
    config.ReadFrom environment ∧
    (∀ (setting : Setting) (name : String) (text : Option String),
      name ≠ setting.variableName →
      setting.of (fromEnvironment (Function.update environment name text)) =
        setting.of config) ∧
    Function.Injective Setting.variableName ∧
    (∀ parallelism, (config.workerCount parallelism).toNat = max config.minWorkers.toNat
      (min (UInt64.size - 1) (max parallelism.toNat 1 + config.ioOversubscription.toNat))) ∧
    (∀ parallelism, 1 ≤ (config.workerCount parallelism).toNat) ∧
    ∀ parallelism more, parallelism ≤ more →
      config.workerCount parallelism ≤ config.workerCount more := by
  intro config
  refine ⟨⟨fun _ _ => Setting.of_fromEnvironment_eq_iff, rfl, rfl, rfl⟩, ?_,
    Setting.variableName_injective, config.toNat_workerCount, config.workerCount_pos,
    fun _ _ => workerCount_mono⟩
  intro setting name text hother
  rw [Setting.of_fromEnvironment, Setting.of_fromEnvironment, Setting.fromEnvironment,
    Setting.fromEnvironment, Function.update_of_ne hother.symm]

/-- An environment with one variable for each setting. The last one is below the minimum. -/
def assorted : Environment := fun name =>
  if name = "ZARRS_PIPELINE_IO_OVERSUBSCRIPTION" then some "18446744073709551615"
  else if name = "ZARRS_PIPELINE_MIN_WORKERS" then some "\t+007 "
  else if name = "ZARRS_PIPELINE_MAX_CHUNK_ELEMS" then some "0"
  else none

/-- Seven workers at least, as many chunks as a word counts, the default limit, and none of this
changes with the variable for the workers. -/
theorem fromEnvironment_exact_assorted :
    Setting.minWorkers.of (fromEnvironment assorted) = 7 ∧
      Setting.maxChunkElements.of (fromEnvironment assorted) = 50000000 ∧
      Setting.maxChunkElements.of (fromEnvironment
        (Function.update assorted "ZARRS_PIPELINE_MIN_WORKERS" (some "9"))) =
        Setting.maxChunkElements.of (fromEnvironment assorted) ∧
      (fromEnvironment assorted).workerCount 1 ≤ (fromEnvironment assorted).workerCount 8 := by
  obtain ⟨hread, hown, -, -, -, hmono⟩ := fromEnvironment_exact assorted
  refine ⟨(hread.of_eq_iff .minWorkers 7).mpr (Or.inl ?_),
    (hread.of_eq_iff .maxChunkElements 50000000).mpr (Or.inr ⟨?_, rfl⟩),
    hown .maxChunkElements _ _ (by decide), hmono 1 8 (by decide)⟩
  · have hblanks : TrimsTo ['\t', '+', '0', '0', '7', ' '] ['+', '0', '0', '7'] :=
      ⟨⟨['\t'], [' '], rfl, by simp [isBlank], by simp [isBlank]⟩, by simp [isBlank],
        by simp [isBlank]⟩
    have hnumber : Denotes ['+', '0', '0', '7'] 7 :=
      ⟨['+'], ['0', '0', '7'], rfl, Or.inr rfl, by decide, by simp, by decide⟩
    exact ⟨_, _, rfl, hblanks, hnumber, by decide⟩
  · intro other hgiven
    rw [← Setting.fromEnvironment_eq_some_iff] at hgiven
    have hnone : Setting.maxChunkElements.fromEnvironment assorted = none := by decide
    rw [hnone] at hgiven
    cases hgiven

end Config

end ChunkedArray
