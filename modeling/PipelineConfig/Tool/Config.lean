import PipelineConfig.Json.Record
import PipelineConfig.Log.Level
import PipelineConfig.Tool.Error
import PipelineConfig.Validation.Limits

/-!
# Configuration of the tool

The configuration is a record whose fields may all be left out. It names a
catalog, sets the limits of validations and the threshold of the log.
-/

namespace PipelineConfig

/-- How the tool is set up. -/
structure Config where
  /-- The file of the catalog; without one the built-in catalog is used. -/
  catalogPath : Option String := none
  /-- The greatest depth of a configuration. -/
  maxDepth : Nat := 32
  /-- The greatest length of an array. -/
  maxArrayLength : Nat := 4096
  /-- The name of the log's threshold. -/
  logLevel : String := "info"
  deriving DecidableEq, Repr, Inhabited

namespace Config

/-- How a configuration is written. -/
def form : Reader.Form Config where
  name := "struct Config"
  fields := [
    ⟨"catalog_path", true, do
      let path ← Reader.optionalText "a string"
      pure fun config => { config with catalogPath := path }⟩,
    ⟨"max_depth", true, do
      let depth ← Reader.size
      pure fun config => { config with maxDepth := depth }⟩,
    ⟨"max_array_len", true, do
      let length ← Reader.size
      pure fun config => { config with maxArrayLength := length }⟩,
    ⟨"log_level", true, do
      let name ← Reader.textValue "a string"
      pure fun config => { config with logLevel := name }⟩]
  closed := true
  start := {}

/-- The limits that the configuration sets. -/
def limits (config : Config) : Limits := ⟨config.maxDepth, config.maxArrayLength⟩

/-- The threshold that the configuration sets. -/
def level (config : Config) : Except ToolError Level :=
  match Level.ofName config.logLevel with
  | .ok level => .ok level
  | .error name => .error (.config (Level.unknownMessage name))

/-- The configuration, if it can be used: limits are positive and the threshold is
a level. -/
def checked (config : Config) : Except ToolError Config :=
  if config.maxDepth = 0 then .error (.config "max_depth must be > 0")
  else if config.maxArrayLength = 0 then .error (.config "max_array_len must be > 0")
  else match config.level with
    | .ok _ => .ok config
    | .error e => .error e

/-- Reads a configuration and checks that it can be used. -/
def parse (text : String) : Except ToolError Config :=
  match form.read.run text with
  | .ok config => config.checked
  | .error e => .error (.config ("Invalid config JSON: " ++ e.message))

/-- The configuration as JSON. -/
def toJson (config : Config) : Json :=
  .object [
    ("catalog_path", match config.catalogPath with
      | some path => .string path
      | none => .null),
    ("max_depth", .number (.integer config.maxDepth)),
    ("max_array_len", .number (.integer config.maxArrayLength)),
    ("log_level", .string config.logLevel)]

end Config

end PipelineConfig
