import PipelineConfig.Json.Basic

/-!
# Limits

Limits bound the work of one validation: how deep a configuration may be nested
and how long an array may be for its elements to be looked at.
-/

namespace PipelineConfig

/-- Bounds on one validation. -/
structure Limits where
  /-- The greatest number of steps from the root to a value. -/
  maxDepth : Nat := 32
  /-- The greatest number of elements of an array. -/
  maxArrayLength : Nat := 4096
  deriving DecidableEq, Repr, Inhabited

/-- The limits as JSON. -/
def Limits.toJson (limits : Limits) : Json :=
  .object [("max_depth", .number (.integer limits.maxDepth)),
    ("max_array_len", .number (.integer limits.maxArrayLength))]

end PipelineConfig
