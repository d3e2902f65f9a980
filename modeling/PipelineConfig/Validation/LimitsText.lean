import PipelineConfig.Json.Record
import PipelineConfig.Validation.Limits

/-!
# Reading limits

Both limits must be written; other fields are passed over.
-/

namespace PipelineConfig.Limits

/-- How limits are written. -/
def form : Reader.Form Limits where
  name := "struct ValidationLimits"
  fields := [
    ⟨"max_depth", false, do
      let depth ← Reader.size
      pure fun limits => { limits with maxDepth := depth }⟩,
    ⟨"max_array_len", false, do
      let length ← Reader.size
      pure fun limits => { limits with maxArrayLength := length }⟩]
  closed := false
  start := {}

/-- Reads limits. -/
def parse (text : String) : Except TextError Limits := form.read.run text

end PipelineConfig.Limits
