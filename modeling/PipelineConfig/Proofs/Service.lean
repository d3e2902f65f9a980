import PipelineConfig.Proofs.Catalogs
import PipelineConfig.Proofs.SessionLogs

/-!
# Serving requests

A catalog serves requests one after another. They share one console, and with it the
threshold of the log, which a request may set. The main statement is what every request
adds to the log under the threshold in force, and that no answer depends on the threshold.
-/

namespace PipelineConfig

/-- What is asked of a catalog while it serves. -/
inductive Request where
  /-- Validate the configuration of a stage. -/
  | validate (category typeKey : String) (candidate : Json)
  /-- Show the stage types, perhaps of one category. -/
  | list (category : Option String)
  /-- Set the threshold of the log. -/
  | setThreshold (level : Level)

/-- What a request is answered with. -/
inductive Outcome where
  /-- The report on a stage. -/
  | report (report : Report)
  /-- The stage types. -/
  | listing (data : Json)
  /-- The threshold is set. -/
  | done

namespace Request

/-- The threshold that the request sets. -/
def level? : Request → Option Level
  | setThreshold level => some level
  | validate .. | list _ => none

/-- Whether the request sets the threshold. -/
def setsThreshold (request : Request) : Bool := request.level?.isSome

/-- The threshold in force after the requests: the last one set, or else the one at the
start. -/
def inForce (start : Level) (requests : List Request) : Level :=
  (requests.filterMap level?).getLast?.getD start

/-- Serves the request in a session. -/
def session (catalog : Catalog) (config : Config) : Request → Session Id Outcome
  | validate category typeKey candidate => do
    let report ← Session.validateStage catalog config.limits category typeKey candidate
    pure (.report report)
  | list category => do
    let data ← Session.ofExcept (catalog.listing category)
    pure (.listing data)
  | setThreshold level => do
    Session.setThreshold level
    pure .done

/-- The answer to the request, computed without a console. -/
def answer (catalog : Catalog) (config : Config) : Request → Except ToolError Outcome
  | validate category typeKey candidate => .report <$>
    (catalog.validate config.limits category typeKey candidate).mapError ToolError.ofCatalog
  | list category => .listing <$> catalog.listing category
  | setThreshold _ => .ok .done

/-- What the request does to the console. -/
def effect (catalog : Catalog) (config : Config) (console : Console) : Request → Console
  | validate category typeKey candidate =>
    console.logging [Event.validationBegin.record [("stage", category ++ "/" ++ typeKey)],
      Session.closing (category ++ "/" ++ typeKey)
        (catalog.validate config.limits category typeKey candidate)]
  | list _ => console
  | setThreshold level => { console with threshold := level }

variable {catalog : Catalog} {config : Config}

/-- A request is answered in the same way from any console on. -/
theorem runFrom_session (request : Request) (console : Console) :
    (request.session catalog config).runFrom console =
      (request.answer catalog config, request.effect catalog config console) := by
  cases request with
  | validate category typeKey candidate =>
    exact (Session.logs_validateStage catalog config.limits category typeKey candidate).bind_map
      console
  | list category =>
    refine ((Session.logs_ofExcept (catalog.listing category)).bind_map console).trans ?_
    rw [console.logging_nil]
    rfl
  | setThreshold level => rfl

theorem threshold_effect (request : Request) (console : Console) :
    (request.effect catalog config console).threshold =
      request.level?.getD console.threshold := by
  cases request <;> rfl

theorem inForce_cons (start : Level) (request : Request) (rest : List Request) :
    inForce start (request :: rest) = inForce (request.level?.getD start) rest := by
  rw [inForce, inForce, List.filterMap_cons]
  cases request.level? with
  | none => rfl
  | some level =>
    dsimp only
    rw [List.getLast?_cons]
    rfl

end Request

/-- A request that was served. -/
structure Turn where
  /-- What was asked. -/
  request : Request
  /-- The console before. -/
  before : Console
  /-- What was answered. -/
  answer : Except ToolError Outcome
  /-- The console after. -/
  after : Console

/-- Serves the requests one after another on one console. -/
def Catalog.serve (catalog : Catalog) (config : Config) (console : Console) :
    List Request → List Turn
  | [] => []
  | request :: rest =>
    let served := (request.session catalog config).runFrom console
    ⟨request, console, served.1, served.2⟩ :: catalog.serve config served.2 rest

namespace LogLine

/-- The validation of a stage begins. -/
def begun (stage : String) : LogLine :=
  ⟨.trace, .object [("event", .string "VALIDATION_BEGIN"), ("severity", .string "TRACE"),
    ("stage", .string stage)]⟩

/-- The stage is accepted with so many defaults. -/
def accepted (stage : String) (defaulted : Nat) : LogLine :=
  ⟨.info, .object [("event", .string "VALIDATION_ACCEPTED"), ("severity", .string "INFO"),
    ("defaulted", .string (toString defaulted)), ("stage", .string stage)]⟩

/-- The stage is rejected with so many violations. -/
def rejected (stage : String) (violations : Nat) : LogLine :=
  ⟨.warn, .object [("event", .string "VALIDATION_REJECTED"), ("severity", .string "WARN"),
    ("stage", .string stage), ("violations", .string (toString violations))]⟩

/-- There is no such stage. -/
def unknown (stage : String) : LogLine :=
  ⟨.warn, .object [("event", .string "UNKNOWN_STAGE_TYPE"), ("severity", .string "WARN"),
    ("stage", .string stage)]⟩

/-- The line tells how the validation of a stage was answered. -/
structure Tells (line : LogLine) (stage : String) (answer : Except ToolError Outcome) : Prop where
  /-- The stage was accepted, with so many defaults. -/
  accepted : ∀ n, line = accepted stage n ↔
    ∃ report, answer = .ok (.report report) ∧ report.ok = true ∧ report.defaulted.length = n
  /-- The stage was rejected, with so many violations. -/
  rejected : ∀ n, line = rejected stage n ↔
    ∃ report, answer = .ok (.report report) ∧ report.violations ≠ [] ∧
      report.violations.length = n
  /-- There is no such stage. -/
  unknown : line = unknown stage ↔ ∃ e, answer = .error e

variable {stage : String} {report : Report} {m n : Nat}

theorem toString_nat_inj : toString m = toString n ↔ m = n := by
  refine ⟨fun h => ?_, congrArg toString⟩
  have hdigits : Nat.toDigits 10 m = Nat.toDigits 10 n := by
    rw [← Nat.toList_repr, ← Nat.toList_repr]
    exact congrArg String.toList h
  rw [← Nat.ofDigitChars_ten_toDigits (n := m), hdigits, Nat.ofDigitChars_ten_toDigits]

/-- A count can be told from the line that has it. -/
theorem accepted_inj : accepted stage m = accepted stage n ↔ m = n := by
  simp only [accepted, mk.injEq, Json.object.injEq, List.cons.injEq, Prod.mk.injEq,
    Json.string.injEq, toString_nat_inj, true_and, and_true]

theorem rejected_inj : rejected stage m = rejected stage n ↔ m = n := by
  simp only [rejected, mk.injEq, Json.object.injEq, List.cons.injEq, Prod.mk.injEq,
    Json.string.injEq, toString_nat_inj, true_and, and_true]

theorem rejected_ne_unknown : rejected stage n ≠ unknown stage := by
  simp [rejected, unknown]

theorem tells_accepted (hok : report.ok = true) :
    (accepted stage report.defaulted.length).Tells stage (.ok (.report report)) where
  accepted n := by simp [accepted_inj, hok]
  rejected n := by
    refine ⟨nofun, ?_⟩
    rintro ⟨other, hother, hrejected, -⟩
    cases hother
    exact absurd (Report.ok_iff.mp hok) hrejected
  unknown := ⟨nofun, nofun⟩

theorem tells_rejected (hok : report.ok = false) :
    (rejected stage report.violations.length).Tells stage (.ok (.report report)) where
  accepted n := by
    refine ⟨nofun, ?_⟩
    rintro ⟨other, hother, haccepted, -⟩
    cases hother
    cases hok.symm.trans haccepted
  rejected n := by
    have hviolations : report.violations ≠ [] := fun hnone =>
      Bool.eq_false_iff.mp hok (Report.ok_iff.mpr hnone)
    simp [rejected_inj, hviolations]
  unknown := ⟨fun h => absurd h rejected_ne_unknown, nofun⟩

theorem tells_unknown (e : ToolError) : (unknown stage).Tells stage (.error e) where
  accepted _ := ⟨nofun, nofun⟩
  rejected _ := ⟨fun h => absurd h.symm rejected_ne_unknown, nofun⟩
  unknown := ⟨fun _ => ⟨e, rfl⟩, fun _ => rfl⟩

end LogLine

namespace LogRecord

/-- What is told of an event is what the event is, and its fields in ascending order. -/
theorem told_record (event : Event) {fields sorted : List (String × String)}
    (hd : (fields.map Prod.fst).Nodup) (hp : sorted.Perm fields)
    (ha : sorted.Pairwise fun a b => decide (a.1 ≤ b.1) = true) :
    (event.record fields).told = ⟨event.level, .object (("event", .string event.name) ::
      ("severity", .string event.level.name) ::
        sorted.map fun field => (field.1, .string field.2))⟩ := by
  have hsorted : (event.record fields).sortedFields = sorted := sortedFields_eq hd hp ha
  rw [told, content, members, hsorted]
  rfl

theorem told_stage (event : Event) (stage : String) :
    (event.record [("stage", stage)]).told = ⟨event.level, .object [("event", .string event.name),
      ("severity", .string event.level.name), ("stage", .string stage)]⟩ := by
  have hd : ([("stage", stage)].map Prod.fst).Nodup := List.nodup_singleton _
  exact told_record event hd (List.Perm.refl _) (List.pairwise_singleton _ _)

theorem nodup_keys_stage (event : Event) (stage : String) :
    ((event.record [("stage", stage)]).members.map Prod.fst).Nodup := by
  have hkeys : ["stage"].Nodup ∧ "event" ∉ ["stage"] ∧ "severity" ∉ ["stage"] := by decide
  exact nodup_keys_members hkeys.1 hkeys.2.1 hkeys.2.2

theorem told_accepted (stage : String) (n : Nat) :
    (Event.validationAccepted.record [("stage", stage), ("defaulted", toString n)]).told =
      .accepted stage n := by
  have hkeys : ["stage", "defaulted"].Nodup := by decide
  have hascending : decide ("defaulted" ≤ "stage") = true := by decide
  have hd : ([("stage", stage), ("defaulted", toString n)].map Prod.fst).Nodup := hkeys
  exact told_record _ hd (List.Perm.swap _ _ _) (List.pairwise_pair.mpr hascending)

theorem told_rejected (stage : String) (n : Nat) :
    (Event.validationRejected.record [("stage", stage), ("violations", toString n)]).told =
      .rejected stage n := by
  have hkeys : ["stage", "violations"].Nodup := by decide
  have hascending : decide ("stage" ≤ "violations") = true := by decide
  have hd : ([("stage", stage), ("violations", toString n)].map Prod.fst).Nodup := hkeys
  exact told_record _ hd (List.Perm.refl _) (List.pairwise_pair.mpr hascending)

end LogRecord

/-- A validation ends with what it is answered with. -/
theorem Session.tells_closing (stage : String) (result : Except CatalogError Report) :
    (closing stage result).told.Tells stage (.report <$> result.mapError ToolError.ofCatalog) := by
  cases result with
  | error e =>
    rw [closing, LogRecord.told_stage]
    exact LogLine.tells_unknown _
  | ok report =>
    rw [closing]
    cases hok : report.ok with
    | true =>
      rw [if_pos rfl, LogRecord.told_accepted]
      exact LogLine.tells_accepted hok
    | false =>
      rw [if_neg (by decide), LogRecord.told_rejected]
      exact LogLine.tells_rejected hok

theorem Session.nodup_keys_closing (stage : String) (result : Except CatalogError Report) :
    ((closing stage result).members.map Prod.fst).Nodup := by
  have haccepted : ["stage", "defaulted"].Nodup ∧ "event" ∉ ["stage", "defaulted"] ∧
      "severity" ∉ ["stage", "defaulted"] := by decide
  have hrejected : ["stage", "violations"].Nodup ∧ "event" ∉ ["stage", "violations"] ∧
      "severity" ∉ ["stage", "violations"] := by decide
  unfold closing
  split
  · split
    · exact LogRecord.nodup_keys_members haccepted.1 haccepted.2.1 haccepted.2.2
    · exact LogRecord.nodup_keys_members hrejected.1 hrejected.2.1 hrejected.2.2
  · exact LogRecord.nodup_keys_stage .unknownStageType stage

/-- What the log gets of a validation is read as the lines that the threshold admits. -/
theorem Session.linesRead_validation (threshold : Level) (stage : String)
    (result : Except CatalogError Report) :
    LinesRead (LogRecord.restricted threshold
        [Event.validationBegin.record [("stage", stage)], closing stage result])
      (([LogLine.begun stage, (closing stage result).told].filter fun line =>
        line.level ∈ threshold.onwards).map LogLine.content) := by
  have hbegun : (Event.validationBegin.record [("stage", stage)]).told = .begun stage :=
    LogRecord.told_stage .validationBegin stage
  have hkeys : ∀ record ∈ [Event.validationBegin.record [("stage", stage)], closing stage result],
      (record.members.map Prod.fst).Nodup := by
    rw [List.forall_mem_cons, List.forall_mem_singleton]
    exact ⟨LogRecord.nodup_keys_stage .validationBegin stage, nodup_keys_closing stage result⟩
  rw [← hbegun]
  exact LogRecord.linesRead_restricted threshold hkeys

namespace Turn

/-- What a turn adds to the log under the threshold in force. A validation adds the lines
that the threshold admits of two, the second of which tells the answer. All else adds
nothing. -/
def Logged (threshold : Level) (turn : Turn) : Prop :=
  match turn.request with
  | .validate category typeKey _ => ∃ (line : LogLine) (added : String),
    line.Tells (category ++ "/" ++ typeKey) turn.answer ∧
      turn.after.log = turn.before.log ++ added ∧
      LinesRead added (([.begun (category ++ "/" ++ typeKey), line].filter fun line =>
        line.level ∈ threshold.onwards).map LogLine.content)
  | .list _ | .setThreshold _ => turn.after.log = turn.before.log

end Turn

section Serving

variable (catalog : Catalog) (config : Config)

/-- One request adds to the log what it should. -/
theorem Request.logged (request : Request) (before : Console) :
    Turn.Logged before.threshold ⟨request, before, request.answer catalog config,
      request.effect catalog config before⟩ := by
  cases request with
  | validate category typeKey candidate =>
    exact ⟨_, _, Session.tells_closing _ _, rfl, Session.linesRead_validation _ _ _⟩
  | list category => rfl
  | setThreshold level => rfl

theorem Catalog.serve_cons (console : Console) (request : Request) (rest : List Request) :
    catalog.serve config console (request :: rest) =
      ⟨request, console, request.answer catalog config, request.effect catalog config console⟩ ::
        catalog.serve config (request.effect catalog config console) rest := by
  rw [serve, Request.runFrom_session]

theorem Catalog.map_request_serve (console : Console) (requests : List Request) :
    (catalog.serve config console requests).map Turn.request = requests := by
  induction requests generalizing console with
  | nil => rfl
  | cons request rest ih => rw [serve_cons, List.map_cons, ih]

/-- The answers are those of the requests, whatever the console. -/
theorem Catalog.answer_of_mem_serve {console : Console} {requests : List Request} {turn : Turn}
    (h : turn ∈ catalog.serve config console requests) :
    turn.answer = turn.request.answer catalog config := by
  induction requests generalizing console with
  | nil => cases h
  | cons request rest ih =>
    rw [serve_cons] at h
    obtain rfl | hrest := List.mem_cons.mp h
    · rfl
    · exact ih hrest

/-- So turns can be left out without a change to the other answers. -/
theorem Catalog.map_answer_of_subset {console : Console} {requests : List Request}
    {turns : List Turn} (h : turns ⊆ catalog.serve config console requests) :
    turns.map Turn.answer = (turns.map Turn.request).map (Request.answer catalog config) := by
  rw [List.map_map]
  exact List.map_congr_left fun turn hm => catalog.answer_of_mem_serve config (h hm)

/-- Every turn adds to the log what it should under the threshold that the turns before it
left. -/
theorem Catalog.logged_of_serve {console : Console} {requests : List Request} {i : Nat}
    {turn : Turn} (h : (catalog.serve config console requests)[i]? = some turn) :
    turn.Logged (Request.inForce console.threshold (requests.take i)) := by
  induction requests generalizing console i with
  | nil => cases h
  | cons request rest ih =>
    rw [serve_cons] at h
    cases i with
    | zero =>
      cases h
      exact request.logged catalog config console
    | succ i =>
      rw [List.take_succ_cons, Request.inForce_cons, ← request.threshold_effect]
      exact ih h

end Serving

/-- In whatever order requests come, every validation is logged once, by the records of its
begin and of its answer as far as the threshold then in force admits them. Nothing else is
logged, and setting the threshold changes no answer. -/
theorem Catalog.serve_logged (catalog : Catalog) (config : Config) (start : Console)
    (requests : List Request) :
    let turns := catalog.serve config start requests
    turns.map Turn.request = requests ∧
    (∀ (i : Nat) (turn : Turn), turns[i]? = some turn →
      turn.answer = turn.request.answer catalog config ∧
        turn.Logged (Request.inForce start.threshold (requests.take i))) ∧
    (turns.filter fun turn => !turn.request.setsThreshold).map Turn.answer =
      (catalog.serve config start
        (requests.filter fun request => !request.setsThreshold)).map Turn.answer := by
  refine ⟨catalog.map_request_serve config start requests, fun i turn hturn => ?_, ?_⟩
  · exact ⟨catalog.answer_of_mem_serve config (List.mem_of_getElem? hturn),
      catalog.logged_of_serve config hturn⟩
  · -- Without their consoles, turns are no more than requests with their answers.
    calc
      _ = (((catalog.serve config start requests).filter fun turn =>
            !turn.request.setsThreshold).map Turn.request).map (Request.answer catalog config) :=
        catalog.map_answer_of_subset config (List.filter_subset_self _)
      _ = (((catalog.serve config start requests).map Turn.request).filter fun request =>
            !request.setsThreshold).map (Request.answer catalog config) := by
        rw [List.filter_map]
        rfl
      _ = (requests.filter fun request => !request.setsThreshold).map
            (Request.answer catalog config) := by
        rw [catalog.map_request_serve]
      _ = _ := by
        rw [catalog.map_answer_of_subset config (List.Subset.refl _), catalog.map_request_serve]

/-- A stage that is accepted, and after the threshold is raised one that is rejected and one
that is not there. -/
def threeVisits : List Request :=
  [.validate "source" "retry" (.object [("name", .string "feed")]), .setThreshold .warn,
    .list (some "source"), .validate "source" "retry" (.object []),
    .validate "lake" "retry" .null]

/-- Of the visits, the first is logged as accepted, with two defaults, and the other two as
what they are. -/
theorem serve_logged_threeVisits :
    let turns := retryCatalog.serve {} {} threeVisits
    (∃ turn, turns[0]? = some turn ∧ ∃ added, turn.after.log = turn.before.log ++ added ∧
      LinesRead added [.object [("event", .string "VALIDATION_ACCEPTED"),
        ("severity", .string "INFO"), ("defaulted", .string "2"),
        ("stage", .string "source/retry")]]) ∧
    (∃ turn, turns[3]? = some turn ∧ ∃ added, turn.after.log = turn.before.log ++ added ∧
      LinesRead added [.object [("event", .string "VALIDATION_REJECTED"),
        ("severity", .string "WARN"), ("stage", .string "source/retry"),
        ("violations", .string "1")]]) ∧
    (∃ turn, turns[4]? = some turn ∧ ∃ added, turn.after.log = turn.before.log ++ added ∧
      LinesRead added [.object [("event", .string "UNKNOWN_STAGE_TYPE"),
        ("severity", .string "WARN"), ("stage", .string "lake/retry")]]) := by
  have hturns := (retryCatalog.serve_logged {} {} threeVisits).2.1
  refine ⟨⟨_, rfl, ?_⟩, ⟨_, rfl, ?_⟩, ⟨_, rfl, ?_⟩⟩
  · obtain ⟨hanswer, line, added, htells, hlog, hlines⟩ := hturns 0 _ rfl
    rw [hanswer] at htells
    obtain rfl := (htells.accepted 2).mpr ⟨_, rfl, by decide +kernel, by decide +kernel⟩
    exact ⟨added, hlog, hlines⟩
  · obtain ⟨hanswer, line, added, htells, hlog, hlines⟩ := hturns 3 _ rfl
    rw [hanswer] at htells
    obtain rfl := (htells.rejected 1).mpr ⟨_, rfl, by decide +kernel, by decide +kernel⟩
    exact ⟨added, hlog, hlines⟩
  · obtain ⟨hanswer, line, added, htells, hlog, hlines⟩ := hturns 4 _ rfl
    rw [hanswer] at htells
    obtain rfl := htells.unknown.mpr ⟨_, rfl⟩
    exact ⟨added, hlog, hlines⟩

end PipelineConfig
