import PipelineConfig.Json.Text
import PipelineConfig.Log.Level

/-!
# Log records

A record is one line: an object of texts, with the event first, the level second
and the fields after them in ascending order of their keys. Every control
character is escaped, so that the line ends where the record does.
-/

namespace PipelineConfig

/-- Something that happened. -/
structure LogRecord where
  /-- How much it matters. -/
  level : Level
  /-- What happened. -/
  event : String
  /-- Particulars, in any order. -/
  fields : List (String × String)
  deriving DecidableEq, Repr

namespace LogRecord

/-- Whether a character is a control character. -/
def isControl (c : Char) : Bool := c.toNat < 0x20 || (0x7F ≤ c.toNat && c.toNat < 0xA0)

/-- A character as it stands between the quotes of a text. -/
def escape (c : Char) : String :=
  match c with
  | '"' => "\\\""
  | '\\' => "\\\\"
  | '\n' => "\\n"
  | '\r' => "\\r"
  | '\t' => "\\t"
  | _ => if isControl c then "\\u" ++ Json.fourHex c.toNat else c.toString

/-- A text with its quotes. -/
def quoted (s : String) : String :=
  "\"" ++ String.join (s.toList.map escape) ++ "\""

/-- The fields in ascending order of their keys; fields of one key stay in their
order. -/
def sortedFields (record : LogRecord) : List (String × String) :=
  record.fields.mergeSort fun a b => decide (a.1 ≤ b.1)

/-- The members of the line, in order. -/
def members (record : LogRecord) : List (String × String) :=
  ("event", record.event) :: ("severity", record.level.name) :: record.sortedFields

/-- A member of the line. -/
def memberText (member : String × String) : String := quoted member.1 ++ ":" ++ quoted member.2

/-- The record as a line, with its end. -/
def line (record : LogRecord) : String :=
  "\x7b" ++ ",".intercalate (record.members.map memberText) ++ "\x7d\n"

/-- What a log with the given threshold writes for the record. -/
def written (threshold : Level) (record : LogRecord) : String :=
  if threshold.admits record.level then record.line else ""

end LogRecord

end PipelineConfig
