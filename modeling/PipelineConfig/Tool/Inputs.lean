import PipelineConfig.Catalog.Builtin
import PipelineConfig.Tool.Config
import PipelineConfig.Tool.Document
import PipelineConfig.Tool.Host

/-!
# What the tool reads

The tool reads its configuration, a catalog and a document. Each may come from a
file; without one the configuration and the catalog are the built-in ones, and
the document is the standard input.
-/

namespace PipelineConfig

namespace Host

variable {m : Type → Type} [Monad m]

/-- Reads the configuration, from a file if one is named. -/
def config (host : Host m) : Option String → m (Except ToolError Config)
  | none => pure (.ok {})
  | some path => do
    match ← host.file path with
    | .ok text => pure (Config.parse text)
    | .error e => pure (.error (.config ("Failed to read config: " ++ e.message)))

/-- Reads a catalog, from a file if one is named. -/
def catalog (host : Host m) : Option String → m (Except CatalogError Catalog)
  | none => pure (.ok Catalog.builtin)
  | some path => do
    match ← host.file path with
    | .ok text => pure (Catalog.parse text path)
    | .error e => pure (.error (.unreadable path e.message))

/-- Reads a document, from a file if one is named and else from the standard
input. -/
def document (host : Host m) : Option String → m (Except ToolError Json)
  | none => do
    match ← host.input with
    | .ok text => pure (readDocument text)
    | .error e => pure (.error (.io e.message))
  | some path => do
    match ← host.file path with
    | .ok text => pure (readDocument text)
    | .error e => pure (.error (.io ("Failed to read '" ++ path ++ "': " ++ e.message)))

end Host

end PipelineConfig
