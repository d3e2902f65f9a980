import PipelineConfig.Catalog.Error
import PipelineConfig.Json.Reader

/-!
# Errors of the tool
-/

namespace PipelineConfig

/-- Why a command of the tool fails. -/
inductive ToolError where
  /-- The configuration cannot be used. -/
  | config (reason : String)
  /-- A document cannot be read. -/
  | io (reason : String)
  /-- The catalog cannot be had, or lacks what was asked for. -/
  | catalog (reason : String)
  /-- So many things are wrong with the configuration of a stage. -/
  | rejected (violations : Nat)
  deriving DecidableEq, Repr

namespace ToolError

/-- The stable code of the error. -/
def code : ToolError → String
  | config _ => "STAGE_CLI_CONFIG_ERROR"
  | io _ => "STAGE_CLI_IO_ERROR"
  | catalog _ => "STAGE_CLI_CATALOG_ERROR"
  | rejected _ => "STAGE_CLI_VALIDATION_REJECTED"

/-- The error in words. -/
def message : ToolError → String
  | config reason | io reason | catalog reason => reason
  | rejected violations =>
    "Configuration rejected with " ++ toString violations ++ " violation(s)"

/-- The error on one line. -/
def text (e : ToolError) : String := e.code ++ ": " ++ e.message

/-- Whether the configuration of a stage was looked at and found wrong. -/
def isRejection : ToolError → Bool
  | rejected _ => true
  | _ => false

/-- An error of the catalog, with the code it has there. -/
def ofCatalog (e : CatalogError) : ToolError := .catalog (e.message ++ " (" ++ e.code ++ ")")

/-- A text that is no JSON. -/
def ofText (e : TextError) : ToolError := .io ("JSON error: " ++ e.message)

end ToolError

end PipelineConfig
