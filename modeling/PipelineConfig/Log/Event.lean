import PipelineConfig.Log.Record

/-!
# Events

The events of loading a configuration and a catalog and of validating with them.
Each has a level of its own.
-/

namespace PipelineConfig

/-- Something worth a log record. -/
inductive Event where
  /-- The tool's configuration is there. -/
  | configLoaded
  /-- A catalog is about to be read. -/
  | catalogBegin
  /-- A catalog is there. -/
  | catalogLoaded
  /-- A catalog could not be had. -/
  | catalogRejected
  /-- A stage is about to be validated. -/
  | validationBegin
  /-- Nothing is wrong with a stage. -/
  | validationAccepted
  /-- Something is wrong with a stage. -/
  | validationRejected
  /-- There is no such stage. -/
  | unknownStageType
  deriving DecidableEq, Repr

namespace Event

/-- The name of the event. -/
def name : Event → String
  | configLoaded => "CONFIG_LOADED"
  | catalogBegin => "CATALOG_LOAD_BEGIN"
  | catalogLoaded => "CATALOG_LOADED"
  | catalogRejected => "CATALOG_REJECTED"
  | validationBegin => "VALIDATION_BEGIN"
  | validationAccepted => "VALIDATION_ACCEPTED"
  | validationRejected => "VALIDATION_REJECTED"
  | unknownStageType => "UNKNOWN_STAGE_TYPE"

/-- Whether nothing can go on after the event. -/
def isFatal : Event → Bool
  | catalogRejected => true
  | _ => false

/-- How much the event matters. -/
def level : Event → Level
  | catalogRejected => .fatal
  | validationRejected | unknownStageType => .warn
  | validationBegin => .trace
  | configLoaded | catalogBegin | catalogLoaded | validationAccepted => .info

/-- The record of the event. -/
def record (event : Event) (fields : List (String × String)) : LogRecord :=
  ⟨event.level, event.name, fields⟩

end Event

end PipelineConfig
