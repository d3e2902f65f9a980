import PipelineConfig.Validation.Violation

/-!
# Checked values

A checked value comes with what was found while it was made: violations, and
the places where a default was used. Paths are relative to the value. What is
found in two steps is kept in the order of the steps.
-/

namespace PipelineConfig

/-- A value and what was found while it was made. -/
structure Checked (α : Type) where
  /-- The value. -/
  value : α
  /-- What is wrong. -/
  violations : List Violation
  /-- Where a default was used. -/
  defaulted : List Path
  deriving Repr

namespace Checked

variable {α β : Type}

instance : Monad Checked where
  pure value := ⟨value, [], []⟩
  bind first next :=
    let second := next first.value
    ⟨second.value, first.violations ++ second.violations, first.defaulted ++ second.defaulted⟩

/-- Records violations. -/
def report (violations : List Violation) : Checked Unit := ⟨(), violations, []⟩

/-- Records that a default is used here. -/
def reportDefault : Checked Unit := ⟨(), [], [Path.root]⟩

/-- The same findings, seen from one step further out. -/
def under (step : Step) (c : Checked α) : Checked α :=
  ⟨c.value, c.violations.map (Violation.under step), c.defaulted.map (step :: ·)⟩

@[simp] theorem value_pure (a : α) : (pure a : Checked α).value = a := rfl

@[simp] theorem violations_pure (a : α) : (pure a : Checked α).violations = [] := rfl

@[simp] theorem defaulted_pure (a : α) : (pure a : Checked α).defaulted = [] := rfl

@[simp] theorem value_bind (c : Checked α) (f : α → Checked β) :
    (c >>= f).value = (f c.value).value := rfl

@[simp] theorem violations_bind (c : Checked α) (f : α → Checked β) :
    (c >>= f).violations = c.violations ++ (f c.value).violations := rfl

@[simp] theorem defaulted_bind (c : Checked α) (f : α → Checked β) :
    (c >>= f).defaulted = c.defaulted ++ (f c.value).defaulted := rfl

/-- A function of the value changes nothing that was found. -/
theorem map_eq (f : α → β) (c : Checked α) : f <$> c = ⟨f c.value, c.violations, c.defaulted⟩ := by
  change (⟨f c.value, c.violations ++ [], c.defaulted ++ []⟩ : Checked β) = _
  rw [List.append_nil, List.append_nil]

@[simp] theorem value_under (step : Step) (c : Checked α) : (c.under step).value = c.value := rfl

@[simp] theorem violations_under (step : Step) (c : Checked α) :
    (c.under step).violations = c.violations.map (Violation.under step) := rfl

@[simp] theorem defaulted_under (step : Step) (c : Checked α) :
    (c.under step).defaulted = c.defaulted.map (step :: ·) := rfl

end Checked

end PipelineConfig
