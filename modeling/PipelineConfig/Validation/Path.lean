import PipelineConfig.Json.Basic

/-!
# Paths

A path leads from a value to one inside it, key by key and index by index.
-/

namespace PipelineConfig

/-- One step of a path. -/
inductive Step where
  /-- Into the member of an object. -/
  | key (name : String)
  /-- Into the element of an array, counted from zero. -/
  | index (i : Nat)
  deriving DecidableEq, Repr

/-- The steps from a value to one inside it, the first step first. -/
abbrev Path := List Step

namespace Step

/-- The step as JSON. -/
def toJson : Step → Json
  | key name => .string name
  | index i => .number (.integer i)

/-- The step as text after other steps. -/
def text : Step → String
  | key name => "." ++ name
  | index i => "[" ++ toString i ++ "]"

end Step

namespace Path

/-- The empty path, which stays where it is. -/
def root : Path := []

/-- The path of the given keys. -/
def ofKeys (names : List String) : Path := names.map .key

/-- The path with one more step at its end. -/
def extend (path : Path) (step : Step) : Path := path ++ [step]

/-- Whether the path stays where it is. -/
def isRoot (path : Path) : Bool := path.isEmpty

/-- The number of steps. -/
def depth (path : Path) : Nat := path.length

/-- The path as JSON. -/
def toJson (path : Path) : Json := .array (path.map Step.toJson)

/-- The path as text. A key at its front has no dot before it. -/
def text : Path → String
  | [] => "$root"
  | .key name :: rest => name ++ String.join (rest.map Step.text)
  | step :: rest => step.text ++ String.join (rest.map Step.text)

end Path

end PipelineConfig
