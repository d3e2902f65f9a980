/-!
# Log levels

Levels are ordered by how much a record matters. A log has a threshold and keeps
the records at or above it.
-/

namespace PipelineConfig

/-- How much a log record matters. -/
inductive Level where
  /-- Detail for finding faults. -/
  | trace
  /-- Normal operation. -/
  | info
  /-- Something to look at. -/
  | warn
  /-- Something failed. -/
  | error
  /-- Nothing can go on. -/
  | fatal
  deriving DecidableEq, Repr

namespace Level

/-- All levels from the lowest to the highest. -/
def all : List Level := [trace, info, warn, error, fatal]

/-- The name of the level. -/
def name : Level → String
  | trace => "TRACE"
  | info => "INFO"
  | warn => "WARN"
  | error => "ERROR"
  | fatal => "FATAL"

/-- The place of the level among all. -/
def rank : Level → Nat
  | trace => 0
  | info => 1
  | warn => 2
  | error => 3
  | fatal => 4

/-- Whether a log with this threshold keeps records of the given level. -/
def admits (threshold level : Level) : Bool := threshold.rank ≤ level.rank

/-- A text with its ASCII letters in lower case. -/
def lowerCase (s : String) : String := String.ofList (s.toList.map Char.toLower)

/-- The level of the given name, in any case of letters. An unknown name is given
back in lower case. -/
def ofName (name : String) : Except String Level :=
  match all.find? fun level => lowerCase level.name == lowerCase name with
  | some level => .ok level
  | none => .error (lowerCase name)

/-- What is said of an unknown level. -/
def unknownMessage (name : String) : String :=
  "unknown log level '" ++ name ++ "' (expected trace, info, warn, error or fatal)"

end Level

end PipelineConfig
