import PipelineConfig.Proofs.LogRecords
import PipelineConfig.Tool.Session

/-!
# What a session logs

A session logs records, and the threshold of its console admits some of them. For what
changes nothing but the log, one statement tells its result and all its records, from any
console on: a validation logs its begin, and then how it ended. What the log gets of
records is lines, which are read as the admitted ones.
-/

namespace PipelineConfig

/-- The levels from the given one on. -/
def Level.onwards (threshold : Level) : List Level :=
  [.trace, .info, .warn, .error, .fatal].dropWhile fun level => level ≠ threshold

theorem Level.admits_eq (threshold level : Level) :
    threshold.admits level = decide (level ∈ threshold.onwards) := by
  cases threshold <;> cases level <;> decide

/-- A line that a log may get. -/
structure LogLine where
  /-- How much it matters. -/
  level : Level
  /-- What it is read as. -/
  content : Json

/-- The text consists of one line for each value, which is read as the value. -/
inductive LinesRead : String → List Json → Prop where
  /-- No lines. -/
  | nil : LinesRead "" []
  /-- A line and those after it. -/
  | cons {body text : String} {v : Json} {vs : List Json} : '\n' ∉ body.toList →
      Json.parse (body ++ "\n") = .ok v → LinesRead text vs →
      LinesRead (body ++ "\n" ++ text) (v :: vs)

namespace LogRecord

variable {threshold : Level}

/-- What a log with the given threshold gets of the records. -/
def restricted (threshold : Level) (records : List LogRecord) : String :=
  String.join ((records.filter fun record => threshold.admits record.level).map line)

theorem restricted_nil : restricted threshold [] = "" := String.join_nil

theorem restricted_singleton (record : LogRecord) :
    restricted threshold [record] = record.written threshold := by
  rw [restricted, written, List.filter_cons, List.filter_nil]
  cases threshold.admits record.level with
  | true => exact (String.join_cons ..).trans String.append_empty
  | false => exact String.join_nil

theorem restricted_append (first second : List LogRecord) :
    restricted threshold (first ++ second) =
      restricted threshold first ++ restricted threshold second := by
  rw [restricted, List.filter_append, List.map_append, String.join_append]
  rfl

/-- The line that is logged for the record. -/
def told (record : LogRecord) : LogLine := ⟨record.level, record.content⟩

/-- Without a threshold, records make lines that are read as their contents. -/
theorem linesRead_join {records : List LogRecord}
    (h : ∀ record ∈ records, (record.members.map Prod.fst).Nodup) :
    LinesRead (String.join (records.map line)) (records.map content) := by
  induction records with
  | nil => exact .nil
  | cons record rest ih =>
    have hparse := parse_line (h record List.mem_cons_self)
    have hrest := ih fun other hm => h other (List.mem_cons_of_mem _ hm)
    rw [line_eq] at hparse
    rw [List.map_cons, List.map_cons, String.join_cons, line_eq]
    exact .cons record.oneLine_body hparse hrest

/-- What the log gets of records is read as the lines that its threshold admits. -/
theorem linesRead_restricted (threshold : Level) {records : List LogRecord}
    (h : ∀ record ∈ records, (record.members.map Prod.fst).Nodup) :
    LinesRead (restricted threshold records) (((records.map told).filter fun line =>
      line.level ∈ threshold.onwards).map LogLine.content) := by
  have hadmitted : (fun record => threshold.admits record.level) =
      (fun line : LogLine => decide (line.level ∈ threshold.onwards)) ∘ told :=
    funext fun record => threshold.admits_eq record.level
  rw [restricted, hadmitted, List.filter_map, List.map_map]
  exact linesRead_join fun record hm => h record (List.mem_of_mem_filter hm)

end LogRecord

namespace Console

/-- The console once the records are logged. -/
def logging (console : Console) (records : List LogRecord) : Console :=
  { console with log := console.log ++ LogRecord.restricted console.threshold records }

theorem logging_nil (console : Console) : console.logging [] = console := by
  rw [logging, LogRecord.restricted_nil, String.append_empty]

theorem logging_append (console : Console) (first second : List LogRecord) :
    console.logging (first ++ second) = (console.logging first).logging second := by
  rw [logging, LogRecord.restricted_append, ← String.append_assoc]
  rfl

end Console

namespace Session

variable {α β : Type} {s : Session Id α} {f : α → Session Id β} {a : α} {e : ToolError}
  {result : Except ToolError β} {first second : List LogRecord}

/-- From any console on, the session ends in the result and logs the records. Nothing else
happens to the console. -/
def Logs (s : Session Id α) (result : Except ToolError α) (records : List LogRecord) : Prop :=
  ∀ console, s.runFrom console = (result, console.logging records)

theorem runFrom_bind (console : Console) : (s >>= f).runFrom console =
    match s.runFrom console with
    | (.ok a, after) => (f a).runFrom after
    | (.error e, after) => (.error e, after) := by
  rw [runFrom, ExceptT.run_bind, StateT.run_bind]
  change (s.runFrom console >>= _) = _
  cases s.runFrom console with
  | mk result after => cases result <;> rfl

theorem logs_pure (a : α) : Logs (pure a : Session Id α) (.ok a) [] := by
  intro console
  rw [console.logging_nil]
  rfl

theorem logs_throw (e : ToolError) : Logs (throw e : Session Id α) (.error e) [] := by
  intro console
  rw [console.logging_nil]
  rfl

theorem logs_ofExcept (x : Except ToolError α) : Logs (ofExcept x : Session Id α) x [] := by
  cases x with
  | ok a => exact logs_pure a
  | error e => exact logs_throw e

theorem logs_log (event : Event) (fields : List (String × String)) :
    Logs (log event fields : Session Id Unit) (.ok ()) [event.record fields] := by
  intro console
  rw [Console.logging, LogRecord.restricted_singleton]
  rfl

/-- A session goes on logging where the one before it ended. -/
theorem Logs.bind_ok (h : Logs s (.ok a) first) (hf : Logs (f a) result second) :
    Logs (s >>= f) result (first ++ second) := by
  intro console
  rw [runFrom_bind, h console, console.logging_append]
  exact hf (console.logging first)

/-- What comes after a session may do no more than change its result. -/
theorem Logs.bind_map {x : Except ToolError α} {g : α → β} (h : Logs s x first) :
    Logs (s >>= fun a => pure (g a)) (g <$> x) first := by
  cases x with
  | ok a =>
    have hboth : Logs (s >>= fun a => pure (g a)) (.ok (g a)) (first ++ []) :=
      h.bind_ok (logs_pure (g a))
    rwa [List.append_nil] at hboth
  | error e =>
    intro console
    rw [runFrom_bind, h console]
    rfl

end Session

theorem Catalog.isNotFound_of_lookupNamed {catalog : Catalog} {category typeKey : String}
    {e : CatalogError} (h : catalog.lookupNamed category typeKey = .error e) :
    e.isNotFound = true := by
  have hnamed : ∀ other, Category.ofName category = .error other → other.isNotFound = true := by
    intro other hother
    rw [Category.ofName] at hother
    split at hother
    · cases hother
    · cases hother
      rfl
  rw [lookupNamed] at h
  split at h
  · rw [lookup] at h
    split at h
    · cases h
    · cases h
      rfl
  · next other hother =>
    cases h
    exact hnamed _ hother

/-- A validation gives no report only if there is no such stage. -/
theorem Catalog.isNotFound_of_validate {catalog : Catalog} {limits : Limits}
    {category typeKey : String} {candidate : Json} {e : CatalogError}
    (h : catalog.validate limits category typeKey candidate = .error e) : e.isNotFound = true := by
  rw [validate] at h
  split at h
  · cases h
  · next other hlookup =>
    cases h
    exact isNotFound_of_lookupNamed hlookup

/-- The record that ends the validation of a stage. -/
def Session.closing (stage : String) : Except CatalogError Report → LogRecord
  | .ok report =>
    if report.ok then
      Event.validationAccepted.record
        [("stage", stage), ("defaulted", toString report.defaulted.length)]
    else
      Event.validationRejected.record
        [("stage", stage), ("violations", toString report.violations.length)]
  | .error _ => Event.unknownStageType.record [("stage", stage)]

/-- A validation logs its begin and its end. -/
theorem Session.logs_validateStage (catalog : Catalog) (limits : Limits)
    (category typeKey : String) (candidate : Json) :
    Logs (validateStage catalog limits category typeKey candidate)
      ((catalog.validate limits category typeKey candidate).mapError ToolError.ofCatalog)
      [Event.validationBegin.record [("stage", category ++ "/" ++ typeKey)],
        closing (category ++ "/" ++ typeKey)
          (catalog.validate limits category typeKey candidate)] := by
  refine (logs_log _ _).bind_ok ?_
  cases hvalidate : catalog.validate limits category typeKey candidate with
  | error e =>
    dsimp only
    rw [if_pos (Catalog.isNotFound_of_validate hvalidate)]
    exact (logs_log _ _).bind_ok (logs_throw _)
  | ok report =>
    dsimp only [closing]
    cases report.ok with
    | true => exact (logs_log _ _).bind_ok (logs_pure report)
    | false => exact (logs_log _ _).bind_ok (logs_pure report)

end PipelineConfig
