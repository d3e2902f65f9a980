import PipelineConfig.Tool.Session

/-!
# The tool as a process

A process runs one command line. A failure shows in its exit status, on its
standard error output, and, unless the report on a stage is there already, as an
error on its standard output.
-/

namespace PipelineConfig

/-- How a process ends. -/
structure ProcessResult where
  /-- The exit status. -/
  status : Nat
  /-- The standard output. -/
  output : String
  /-- The standard error output. -/
  errors : String
  deriving DecidableEq, Repr

namespace ProcessResult

/-- What the tool says of itself. -/
def helpText : String :=
  "Validates and defaults the configurations of pipeline stages.\n\n" ++
  "  validate --category <c> --type <t> [--input <path>] [--config <path>]\n" ++
  "  describe --category <c> --type <t> [--config <path>]\n" ++
  "  list [--category <c>] [--config <path>]\n" ++
  "  check-catalog --catalog <path>\n"

/-- The version of the tool. -/
def versionText : String := "0.1.0\n"

/-- How a process ends whose command line is not a command. -/
def ofUsage (e : UsageError) : ProcessResult :=
  match e with
  | .help => ⟨0, helpText, ""⟩
  | .version => ⟨0, versionText, ""⟩
  | e => ⟨2, "", e.message ++ "\n\n" ++ helpText⟩

/-- How a process ends whose command has run. -/
def ofCommand : Except ToolError Unit × Console → ProcessResult
  | (.ok (), console) => ⟨0, console.output, console.log⟩
  | (.error e, console) =>
    let envelope := if e.isRejection then "" else errorLine e.code e.message
    ⟨1, console.output ++ envelope, console.log ++ e.text ++ "\n"⟩

end ProcessResult

/-- Runs a command line as a process. -/
def execute {m : Type → Type} [Monad m] (host : Host m) (args : List String) :
    m ProcessResult :=
  match Command.ofArguments args with
  | .error e => pure (.ofUsage e)
  | .ok command => do
    pure (.ofCommand (← (command.run host).runFrom {}))

end PipelineConfig
