import PipelineConfig.Json.Text
import PipelineConfig.Validation.Path

/-!
# Violations

A violation says where a configuration differs from its schema, in which way,
what the schema expects there and what the configuration has.
-/

namespace PipelineConfig

/-- The ways to differ from a schema. -/
inductive Violation.Kind where
  /-- A required field is left out and has no default. -/
  | missingRequiredField
  /-- A value is of another kind than its node. -/
  | typeMismatch
  /-- A value is not among those allowed. -/
  | valueNotInEnum
  /-- A number is outside its bounds. -/
  | outOfRange
  /-- An element repeats an earlier one. -/
  | duplicateItem
  /-- A value is nested too deeply, or an array is too long. -/
  | limitExceeded
  deriving DecidableEq, Repr

namespace Violation.Kind

/-- All kinds. -/
def all : List Violation.Kind :=
  [missingRequiredField, typeMismatch, valueNotInEnum, outOfRange, duplicateItem, limitExceeded]

/-- The name of the kind. -/
def name : Violation.Kind → String
  | missingRequiredField => "MissingRequiredField"
  | typeMismatch => "TypeMismatch"
  | valueNotInEnum => "ValueNotInEnum"
  | outOfRange => "OutOfRange"
  | duplicateItem => "DuplicateItem"
  | limitExceeded => "LimitExceeded"

/-- The kind of the given name. -/
def ofName? (name : String) : Option Violation.Kind := all.find? fun kind => kind.name == name

/-- The stable code of the kind. -/
def code : Violation.Kind → String
  | missingRequiredField => "STAGE_MISSING_REQUIRED_FIELD"
  | typeMismatch => "STAGE_TYPE_MISMATCH"
  | valueNotInEnum => "STAGE_VALUE_NOT_IN_ENUM"
  | outOfRange => "STAGE_OUT_OF_RANGE"
  | duplicateItem => "STAGE_DUPLICATE_ITEM"
  | limitExceeded => "STAGE_LIMIT_EXCEEDED"

end Violation.Kind

/-- A difference between a configuration and its schema. -/
structure Violation where
  /-- Where the difference is. -/
  path : Path
  /-- In which way they differ. -/
  kind : Violation.Kind
  /-- What the schema expects. -/
  expected : String
  /-- What the configuration has. -/
  actual : String
  deriving DecidableEq, Repr

namespace Violation

/-- A required field is left out. -/
def missingField (path : Path) : Violation :=
  ⟨path, .missingRequiredField, "field to be present", "missing"⟩

/-- A value is of another type than its node. -/
def typeMismatch (path : Path) (expected actual : String) : Violation :=
  ⟨path, .typeMismatch, expected, actual⟩

/-- A value is not among those allowed. -/
def notInEnum (path : Path) (allowed : List Json) (actual : Json) : Violation :=
  ⟨path, .valueNotInEnum, "one of [" ++ ", ".intercalate (allowed.map Json.text) ++ "]",
    actual.text⟩

/-- A number is outside its bounds. -/
def outOfRange (path : Path) (bound : String) (actual : Json) : Violation :=
  ⟨path, .outOfRange, bound, actual.text⟩

/-- An element repeats the one at the given index. -/
def duplicateItem (path : Path) (first : Nat) : Violation :=
  ⟨path, .duplicateItem, "unique items", "duplicate of item " ++ toString first⟩

/-- A limit is exceeded. -/
def limitExceeded (path : Path) (limit actual : String) : Violation :=
  ⟨path, .limitExceeded, limit, actual⟩

/-- The same difference, seen from one step further out. -/
def under (step : Step) (v : Violation) : Violation := { v with path := step :: v.path }

/-- The violation in words. -/
def text (v : Violation) : String :=
  "field '" ++ v.path.text ++ "': expected " ++ v.expected ++ ", got " ++ v.actual

/-- The violation as JSON. -/
def toJson (v : Violation) : Json :=
  .object [("path", v.path.toJson), ("kind", .string v.kind.name),
    ("detail", .object [("expected", .string v.expected), ("actual", .string v.actual)])]

end Violation

end PipelineConfig
