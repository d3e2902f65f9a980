import PipelineConfig.Json.Parse
import PipelineConfig.Text.Blank
import PipelineConfig.Tool.Error

/-!
# Documents

The tool reads one JSON document and answers with one line, which holds either
data or an error.
-/

namespace PipelineConfig

/-- Reads a document, which must not be blank. -/
def readDocument (text : String) : Except ToolError Json :=
  if Text.allBlank text then .error (.io "Empty input")
  else match Json.parse text with
    | .ok v => .ok v
    | .error e => .error (.ofText e)

/-- The line that answers with data. -/
def dataLine (data : Json) : String :=
  (Json.object [("status", .string "ok"), ("data", data)]).text ++ "\n"

/-- The line that answers with an error. -/
def errorLine (code message : String) : String :=
  (Json.object [("status", .string "error"), ("code", .string code),
    ("message", .string message)]).text ++ "\n"

end PipelineConfig
