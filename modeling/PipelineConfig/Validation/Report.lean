import PipelineConfig.Validation.Violation

/-!
# Reports

A validation ends in a report: the configuration with its defaults filled in,
what is wrong with it, and where a default was used.
-/

namespace PipelineConfig

/-- The outcome of a validation. -/
structure Report where
  /-- The configuration with defaults in place of fields left out. -/
  normalized : Json
  /-- What is wrong, in the order found. -/
  violations : List Violation
  /-- Where a default was used, in the order found. -/
  defaulted : List Path
  deriving Repr

namespace Report

/-- Whether nothing is wrong. -/
def ok (report : Report) : Bool := report.violations.isEmpty

theorem ok_iff {report : Report} : report.ok = true ↔ report.violations = [] :=
  List.isEmpty_iff

/-- What is wrong in one way, in the order found. -/
def violationsOf (report : Report) (kind : Violation.Kind) : List Violation :=
  report.violations.filter fun v => v.kind == kind

/-- The normalized configuration, if nothing is wrong with it. -/
def accepted (report : Report) : Except (List Violation) Json :=
  if report.ok then .ok report.normalized else .error report.violations

/-- The report as JSON. -/
def toJson (report : Report) : Json :=
  .object [("ok", .bool report.ok), ("normalized", report.normalized),
    ("violations", .array (report.violations.map Violation.toJson)),
    ("defaulted", .array (report.defaulted.map Path.toJson))]

end Report

end PipelineConfig
