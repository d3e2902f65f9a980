import PipelineConfig.Json.Basic

/-!
# JSON as text

The compact text of a value has no blanks and keeps the order of members.
Within a string the quote, the backslash and the control characters below the
space are escaped, and nothing else is.
-/

namespace PipelineConfig.Json

/-- The four hexadecimal digits of a code below `65536`. -/
def fourHex (code : Nat) : String :=
  String.ofList ([code / 4096, code / 256, code / 16, code].map fun n => Nat.digitChar (n % 16))

/-- A character as it stands between the quotes of a string. -/
def escape (c : Char) : String :=
  match c with
  | '"' => "\\\""
  | '\\' => "\\\\"
  | '\n' => "\\n"
  | '\r' => "\\r"
  | '\t' => "\\t"
  | '\x08' => "\\b"
  | '\x0c' => "\\f"
  | _ => if c.toNat < 32 then "\\u" ++ fourHex c.toNat else c.toString

/-- A string with its quotes. -/
def quoted (s : String) : String :=
  "\"" ++ String.join (s.toList.map escape) ++ "\""

mutual

/-- The compact text of a value. -/
def text : Json → String
  | .null => "null"
  | .bool b => if b then "true" else "false"
  | .number n => n.text
  | .string s => quoted s
  | .array elements => "[" ++ ",".intercalate (textOfElements elements) ++ "]"
  | .object members => "\x7b" ++ ",".intercalate (textOfMembers members) ++ "\x7d"

/-- The texts of the elements. -/
def textOfElements : List Json → List String
  | [] => []
  | v :: rest => text v :: textOfElements rest

/-- The texts of the members, each a key, a colon and a value. -/
def textOfMembers : List (String × Json) → List String
  | [] => []
  | (key, v) :: rest => (quoted key ++ ":" ++ text v) :: textOfMembers rest

end

end PipelineConfig.Json
