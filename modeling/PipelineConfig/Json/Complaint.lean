import PipelineConfig.Json.Text
import PipelineConfig.Text.Quoted

/-!
# Complaints about the form of a value

A value can be sound JSON and still not be what its place asks for. A complaint
says what was found and what was expected; its message is the same whether the
value comes from a text or was built in memory.
-/

namespace PipelineConfig

/-- What a value is, as far as a complaint about it says. -/
inductive Found where
  /-- The null value. -/
  | null
  /-- A truth value. -/
  | bool (b : Bool)
  /-- A number of either kind. -/
  | number (n : Number)
  /-- A text. -/
  | string (s : String)
  /-- Any array. -/
  | sequence
  /-- Any object. -/
  | map
  deriving DecidableEq, Repr

namespace Found

/-- What a complaint says of a value. -/
def ofJson : Json → Found
  | .null => .null
  | .bool b => .bool b
  | .number n => .number n
  | .string s => .string s
  | .array _ => .sequence
  | .object _ => .map

/-- The words for what was found. -/
def text : Found → String
  | .null => "null"
  | .bool b => "boolean `" ++ (if b then "true" else "false") ++ "`"
  | .number (.integer n) => "integer `" ++ toString n ++ "`"
  | .number (.float x) => "floating point `" ++ x.text ++ "`"
  | .string s => "string " ++ Text.quoted s
  | .sequence => "sequence"
  | .map => "map"

end Found

/-- A reason why a value does not have the form that its place asks for. -/
inductive Complaint where
  /-- A value of another type. -/
  | wrongType (found : Found) (expected : String)
  /-- A value of the right type that is out of bounds. -/
  | wrongValue (found : Found) (expected : String)
  /-- A sequence with a wrong number of elements. -/
  | wrongLength (length : Nat) (expected : String)
  /-- A record without a field that it needs. -/
  | missingField (name : String)
  /-- A record with a field written twice. -/
  | duplicateField (name : String)
  /-- A record with a field that it cannot have. -/
  | unknownField (name : String) (known : List String)
  /-- A name outside a closed list of names. -/
  | unknownVariant (name : String) (known : List String)
  deriving DecidableEq, Repr

namespace Complaint

/-- A name between backticks. -/
def ticked (name : String) : String := "`" ++ name ++ "`"

/-- The names that would have done. -/
def oneOf (known : List String) : String :=
  "expected one of " ++ ", ".intercalate (known.map ticked)

/-- The complaint in words. -/
def message : Complaint → String
  | .wrongType found expected => "invalid type: " ++ found.text ++ ", expected " ++ expected
  | .wrongValue found expected => "invalid value: " ++ found.text ++ ", expected " ++ expected
  | .wrongLength length expected =>
    "invalid length " ++ toString length ++ ", expected " ++ expected
  | .missingField name => "missing field " ++ ticked name
  | .duplicateField name => "duplicate field " ++ ticked name
  | .unknownField name known => "unknown field " ++ ticked name ++ ", " ++ oneOf known
  | .unknownVariant name known => "unknown variant " ++ ticked name ++ ", " ++ oneOf known

end Complaint

end PipelineConfig
