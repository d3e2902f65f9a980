import PipelineConfig.Text.Unshown

/-!
# Text quoted in messages

A message that shows a text puts it in double quotes. Quotes, backslashes and
the common controls are written with a backslash, and any other character that
has no shape of its own by its code.
-/

namespace PipelineConfig.Text

/-- A character as it stands between the quotes. -/
def shown (c : Char) : String :=
  match c with
  | '"' => "\\\""
  | '\\' => "\\\\"
  | '\n' => "\\n"
  | '\r' => "\\r"
  | '\t' => "\\t"
  | '\x00' => "\\0"
  | _ =>
    if isUnshown c then "\\u\x7b" ++ String.ofList (Nat.toDigits 16 c.toNat) ++ "\x7d"
    else c.toString

/-- The text in quotes. -/
def quoted (s : String) : String := "\"" ++ String.join (s.toList.map shown) ++ "\""

end PipelineConfig.Text
