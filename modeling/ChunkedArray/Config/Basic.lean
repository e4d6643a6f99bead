import ChunkedArray.Text.Blank
import ChunkedArray.Text.Decimal

/-!
# ChunkedArray.Config.Basic

The settings of a pipeline, and how environment variables override them.

Three settings can come from the environment, each from a variable of its own.
A variable counts if its text, trimmed of blanks, is a 64-bit decimal number that
is at least the minimum of the setting; any other text leaves the default.
-/

namespace ChunkedArray

/-- The settings of a pipeline. -/
structure Config where
  /-- Workers beyond the parallelism of the machine. -/
  ioOversubscription : UInt64 := 4
  /-- The least number of workers. -/
  minWorkers : UInt64 := 5
  /-- The largest number of elements a chunk may have. -/
  maxChunkElements : UInt64 := 50000000
  /-- Are checksums verified? Absent leaves it to the codec, which does. -/
  validateChecksums : Option Bool := none
  /-- Are chunks kept that hold nothing but the fill value? -/
  storeEmptyChunks : Bool := true
  /-- The concurrency offered to the codecs. -/
  codecConcurrentTarget : Option UInt64 := none
  deriving DecidableEq, Repr, Inhabited

/-- The text of each environment variable that is set. -/
abbrev Environment := String → Option String

/-- The settings that the environment can override. -/
inductive Setting
  | ioOversubscription
  | minWorkers
  | maxChunkElements
  deriving DecidableEq, Repr

namespace Setting

/-- The name of a setting within the names of the pipeline. -/
def name : Setting → String
  | ioOversubscription => "IO_OVERSUBSCRIPTION"
  | minWorkers => "MIN_WORKERS"
  | maxChunkElements => "MAX_CHUNK_ELEMS"

/-- What the names of all variables of the pipeline begin with. -/
def family : String := "ZARRS_PIPELINE_"

/-- The environment variable of a setting. -/
def variableName (setting : Setting) : String := family ++ setting.name

/-- The smallest value that a variable may give to a setting. -/
def minimum : Setting → UInt64
  | ioOversubscription => 0
  | minWorkers => 1
  | maxChunkElements => 1

/-- The value that a text gives to a setting, if it gives one. -/
def read (setting : Setting) (text : String) : Option UInt64 :=
  (readWord (trimBlanks text.toList)).filter (setting.minimum ≤ ·)

/-- The value that the environment gives to a setting, if it gives one. -/
def fromEnvironment (environment : Environment) (setting : Setting) : Option UInt64 :=
  (environment setting.variableName).bind setting.read

end Setting

namespace Config

/-- The defaults, overridden by the environment. -/
def fromEnvironment (environment : Environment) : Config :=
  let defaults : Config := {}
  let value (setting : Setting) (fallback : UInt64) :=
    (setting.fromEnvironment environment).getD fallback
  { defaults with
    ioOversubscription := value .ioOversubscription defaults.ioOversubscription
    minWorkers := value .minWorkers defaults.minWorkers
    maxChunkElements := value .maxChunkElements defaults.maxChunkElements }

/-- The number of workers on a machine that runs `parallelism` threads: those
threads, at least one, and the oversubscription on top, but not fewer than the
least number. The sum stays at the largest word where it would pass it. -/
def workerCount (config : Config) (parallelism : UInt64) : UInt64 :=
  max (UInt64.ofNatClamp ((max parallelism 1).toNat + config.ioOversubscription.toNat))
    config.minWorkers

end Config

end ChunkedArray
