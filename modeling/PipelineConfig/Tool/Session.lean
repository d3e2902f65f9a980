import PipelineConfig.Log.Event
import PipelineConfig.Tool.Arguments
import PipelineConfig.Tool.Inputs

/-!
# Running commands

A command runs in a session, which keeps the log's threshold and gathers what is
written to the standard output and to the log. A command that fails keeps what
was written before. Every command with a configuration loads that first, sets the
threshold by it, and then loads the catalog that it names.
-/

namespace PipelineConfig

/-- What a session keeps. -/
structure Console where
  /-- The log's threshold. -/
  threshold : Level := .info
  /-- The standard output so far. -/
  output : String := ""
  /-- The log so far. -/
  log : String := ""
  deriving DecidableEq, Repr, Inhabited

/-- A computation with a console that can fail. -/
abbrev Session (m : Type → Type) := ExceptT ToolError (StateT Console m)

namespace Session

variable {m : Type → Type} [Monad m] {α : Type}

/-- Runs a session from a console on. -/
def runFrom (session : Session m α) (console : Console) : m (Except ToolError α × Console) :=
  StateT.run (ExceptT.run session) console

/-- Logs an event. -/
def log (event : Event) (fields : List (String × String)) : Session m Unit :=
  modify fun console =>
    { console with log := console.log ++ (event.record fields).written console.threshold }

/-- Sets the log's threshold. -/
def setThreshold (level : Level) : Session m Unit :=
  modify fun console => { console with threshold := level }

/-- Writes a line with data to the standard output. -/
def answer (data : Json) : Session m Unit :=
  modify fun console => { console with output := console.output ++ dataLine data }

/-- Succeeds or fails as the given result does. -/
def ofExcept : Except ToolError α → Session m α
  | .ok a => pure a
  | .error e => throw e

/-- Loads the configuration, from a file if one is named, and sets the threshold. -/
def loadConfig (host : Host m) (path : Option String) : Session m Config := do
  let config ← ofExcept (← host.config path)
  setThreshold (← ofExcept config.level)
  log .configLoaded [("max_depth", toString config.maxDepth),
    ("max_array_len", toString config.maxArrayLength)]
  pure config

/-- Loads a catalog, from a file if one is named, and logs how that went. -/
def loadCatalog (host : Host m) (path : Option String) : Session m Catalog := do
  log .catalogBegin []
  match ← (host.catalog path : m _) with
  | .ok catalog =>
    log .catalogLoaded [("stages", toString catalog.size)]
    pure catalog
  | .error e =>
    log .catalogRejected [("code", e.code), ("reason", e.message)]
    throw (.ofCatalog e)

/-- Validates the configuration of a stage and logs how that went. -/
def validateStage (catalog : Catalog) (limits : Limits) (category typeKey : String)
    (candidate : Json) : Session m Report := do
  let stage := category ++ "/" ++ typeKey
  log .validationBegin [("stage", stage)]
  match catalog.validate limits category typeKey candidate with
  | .error e =>
    if e.isNotFound then log .unknownStageType [("stage", stage)]
    throw (.ofCatalog e)
  | .ok report =>
    if report.ok then
      log .validationAccepted [("stage", stage), ("defaulted", toString report.defaulted.length)]
    else
      log .validationRejected
        [("stage", stage), ("violations", toString report.violations.length)]
    pure report

end Session

/-- The stage types by category, of one category if it is named. -/
def Catalog.listing (catalog : Catalog) (category : Option String) : Except ToolError Json :=
  match category with
  | none => .ok (listed Category.all)
  | some name =>
    match Category.ofName name with
    | .ok category => .ok (listed [category])
    | .error e => .error (.ofCatalog e)
where
  /-- The stage types of the given categories. -/
  listed (categories : List Category) : Json :=
    .object (categories.map fun category =>
      (category.name, .array ((catalog.typeKeys category).map .string)))

namespace Command

variable {m : Type → Type} [Monad m]

/-- Runs a command. The report on a stage is written even if something is wrong
with it, and the command fails then. -/
def run (host : Host m) : Command → Session m Unit
  | validate category typeKey input config => do
    let config ← Session.loadConfig host config
    let catalog ← Session.loadCatalog host config.catalogPath
    let candidate ← Session.ofExcept (← host.document input)
    let report ← Session.validateStage catalog config.limits category typeKey candidate
    Session.answer report.toJson
    if !report.ok then throw (.rejected report.violations.length)
  | describe category typeKey config => do
    let config ← Session.loadConfig host config
    let catalog ← Session.loadCatalog host config.catalogPath
    match Category.ofName category with
    | .error e => throw (.ofCatalog e)
    | .ok category =>
      match catalog.describe category typeKey with
      | .error e => throw (.ofCatalog e)
      | .ok data => Session.answer data
  | list category config => do
    let config ← Session.loadConfig host config
    let catalog ← Session.loadCatalog host config.catalogPath
    Session.answer (← Session.ofExcept (catalog.listing category))
  | checkCatalog path => do
    let catalog ← Session.loadCatalog host (some path)
    Session.answer (.object [("catalog", .string path),
      ("stages", .number (.integer catalog.size))])

end Command

end PipelineConfig
