import PipelineConfig.Proofs.Findings

/-!
# Looks under wider limits

A look that meets no limit is not steered by the limits at all. Under limits that are
as wide or wider it leaves the same value, finds the same and uses the same defaults.
So a report without a limit in it does not depend on the limits, and a configuration
that is accepted stays accepted when they are raised.
-/

namespace PipelineConfig

/-- Checked values are equal if they agree in the value and in what was found. -/
theorem Checked.eq_of {α : Type} {c d : Checked α} (hv : c.value = d.value)
    (hf : c.violations = d.violations) (hu : c.defaulted = d.defaulted) : c = d := by
  cases c
  cases d
  cases hv
  cases hf
  cases hu
  rfl

/-- The second limits are nowhere narrower than the first. -/
structure Limits.Within (limits wider : Limits) : Prop where
  /-- Values may lie as deep. -/
  depth : limits.maxDepth ≤ wider.maxDepth
  /-- Arrays may be as long. -/
  length : limits.maxArrayLength ≤ wider.maxArrayLength

namespace Limits

variable {limits wider : Limits} {depth : Nat} {v : Json}

theorem carry_of_within (h : (limits.carry depth v).WithinLimits) :
    limits.carry depth v = pure v := by
  rw [carry, if_neg (Nat.not_lt.mpr (withinLimits_carry.mp h))]

theorem carry_wider (hle : limits.Within wider) (h : (limits.carry depth v).WithinLimits) :
    wider.carry depth v = limits.carry depth v := by
  have hdepth := withinLimits_carry.mp h
  have hwider : (wider.carry depth v).WithinLimits :=
    withinLimits_carry.mpr (Nat.le_trans hdepth hle.depth)
  rw [carry_of_within h, carry_of_within hwider]

theorem mismatch_wider {kind : Kind} (hle : limits.Within wider)
    (h : (limits.mismatch depth kind v).WithinLimits) :
    wider.mismatch depth kind v = limits.mismatch depth kind v := by
  rw [mismatch, mismatch, carry_wider hle (findsOnly_mismatch.mp h).2]

end Limits

namespace Schema

variable {limits wider : Limits} {depth : Nat} {node : Schema} {v : Json}

theorem examineGiven_wider (hle : limits.Within wider)
    (h : ∀ v, (node.examine limits depth v).WithinLimits →
      node.examine wider depth v = node.examine limits depth v)
    (hw : (node.examineGiven limits depth v).WithinLimits) :
    node.examineGiven wider depth v = node.examineGiven limits depth v := by
  obtain ⟨hdepth, hlook⟩ := withinLimits_examineGiven.mp hw
  rw [examineGiven_of_le hdepth, examineGiven_of_le (Nat.le_trans hdepth hle.depth), h v hlook]

theorem examineField_wider {field : Option Json} (hle : limits.Within wider)
    (h : ∀ v, (node.examine limits depth v).WithinLimits →
      node.examine wider depth v = node.examine limits depth v)
    (hw : (node.examineField limits depth field).WithinLimits) :
    node.examineField wider depth field = node.examineField limits depth field := by
  cases field with
  | some v =>
    have hgiven := examineGiven_wider hle h (findsOnly_examineField_some.mp hw)
    rw [examineField_some, examineField_some, hgiven]
  | none =>
    have hlook := (findsOnly_examineField_none.mp hw).2
    cases hs : node.substitute with
    | default v =>
      rw [examineField_default hs, examineField_default hs, h v (hlook v (by rw [hs]; rfl))]
    | empty v =>
      rw [examineField_empty hs, examineField_empty hs, h v (hlook v (by rw [hs]; rfl))]
    | missing => rw [examineField_missing hs, examineField_missing hs]
    | nothing => rw [examineField_nothing hs, examineField_nothing hs]

theorem examine_object_wider {header : Header} {properties : List (String × Schema)}
    {members : List (String × Json)} (hle : limits.Within wider)
    (h : ∀ name child, (name, child) ∈ properties → ∀ v,
      (child.examine limits (depth + 1) v).WithinLimits →
      child.examine wider (depth + 1) v = child.examine limits (depth + 1) v)
    (hw : ((object header properties).examine limits depth (.object members)).WithinLimits) :
    (object header properties).examine wider depth (.object members) =
      (object header properties).examine limits depth (.object members) := by
  obtain ⟨hfields, hothers⟩ := findsOnly_examine_object.mp hw
  have hfield : ∀ name child, (name, child) ∈ properties →
      child.examineField wider (depth + 1) (fieldValue members name) =
        child.examineField limits (depth + 1) (fieldValue members name) :=
    fun name child hm => examineField_wider hle (h name child hm) (hfields name child hm)
  apply Checked.eq_of
  · rw [value_examine_object, value_examine_object]
    refine congrArg Json.object (replaceDeclared_congr members fun name child hm => ?_)
    rw [hfield name child hm]
  · rw [violations_examine_object, violations_examine_object]
    congr 1
    · exact List.flatMap_congr fun p hp => by rw [hfield p.1 p.2 hp]
    · exact List.flatMap_congr fun m hm => by rw [Limits.carry_wider hle (hothers m.1 m.2 hm)]
  · rw [defaulted_examine_object, defaulted_examine_object]
    exact List.flatMap_congr fun p hp => by rw [hfield p.1 p.2 hp]

theorem examine_array_wider {header : Header} {unique : Bool} {items : Schema}
    {elements : List Json} (hle : limits.Within wider)
    (h : ∀ v, (items.examine limits (depth + 1) v).WithinLimits →
      items.examine wider (depth + 1) v = items.examine limits (depth + 1) v)
    (hw : ((array header unique items).examine limits depth (.array elements)).WithinLimits) :
    (array header unique items).examine wider depth (.array elements) =
      (array header unique items).examine limits depth (.array elements) := by
  have hl := length_le_of_withinLimits hw
  have hl' := Nat.le_trans hl hle.length
  have helement : ∀ v ∈ elements,
      items.examineGiven wider (depth + 1) v = items.examineGiven limits (depth + 1) v :=
    fun v hm => examineGiven_wider hle h (((findsOnly_examine_array hl).mp hw).1 v hm)
  have hvalues : (elements.map fun v => (items.examineGiven wider (depth + 1) v).value) =
      elements.map fun v => (items.examineGiven limits (depth + 1) v).value :=
    List.map_congr_left fun v hm => by rw [helement v hm]
  apply Checked.eq_of
  · rw [value_examine_array hl, value_examine_array hl', hvalues]
  · rw [violations_examine_array hl, violations_examine_array hl', hvalues]
    congr 1
    exact List.flatMap_congr fun p hp => by rw [helement p.1 (List.fst_mem_of_mem_zipIdx hp)]
  · rw [defaulted_examine_array hl, defaulted_examine_array hl']
    exact List.flatMap_congr fun p hp => by rw [helement p.1 (List.fst_mem_of_mem_zipIdx hp)]

/-- A look that meets no limit is the same under wider limits. -/
theorem examine_wider (hle : limits.Within wider)
    (hw : (node.examine limits depth v).WithinLimits) :
    node.examine wider depth v = node.examine limits depth v := by
  induction node, v using inductionAlong generalizing depth with
  | other node v hk =>
    rw [examine_of_not_admits hk] at hw
    rw [examine_of_not_admits hk, examine_of_not_admits hk, Limits.mismatch_wider hle hw]
  | leaf header type allowed v hk => rw [examine_leaf hk, examine_leaf hk]
  | openObject header members =>
    rw [examine_openObject] at hw
    rw [examine_openObject, examine_openObject, Limits.carry_wider hle hw]
  | object header properties members ih =>
    exact examine_object_wider hle (fun name child hm v hv => ih name child hm v hv) hw
  | array header unique items elements ih =>
    exact examine_array_wider hle (fun v hv => ih v hv) hw

/-- A validation that meets no limit gives the same report under wider limits, and what
is accepted stays accepted when the limits are raised. -/
theorem validate_wider (node : Schema) (candidate : Json)
    (hdepth : limits.maxDepth ≤ wider.maxDepth)
    (hlength : limits.maxArrayLength ≤ wider.maxArrayLength) :
    ((∀ x ∈ (node.validate limits candidate).violations, x.kind ≠ .limitExceeded) →
      node.validate wider candidate = node.validate limits candidate) ∧
    ((node.validate limits candidate).ok = true → (node.validate wider candidate).ok = true) := by
  have hle : limits.Within wider := ⟨hdepth, hlength⟩
  have hsame : (node.examineField limits 0 candidate.asField).WithinLimits →
      node.validate wider candidate = node.validate limits candidate := by
    intro hwithin
    have hfield := examineField_wider hle (fun v hv => examine_wider hle hv) hwithin
    rw [validate_eq, validate_eq, hfield]
  refine ⟨hsame, fun hok => ?_⟩
  have hclean : (node.examineField limits 0 candidate.asField).violations = [] :=
    Report.ok_iff.mp hok
  have hwithin : (node.examineField limits 0 candidate.asField).WithinLimits :=
    (Checked.findsOnly_false_iff.mpr hclean).imp fun _ hfalse => hfalse.elim
  rw [hsame hwithin, hok]

/-- The attempts lie two levels down and are too few. Three levels find that too, and
nothing else. -/
theorem validate_wider_retry :
    let candidate := Json.object [("retry", .object [("attempts", .number (.integer 0))])]
    let limits : Limits := { maxDepth := 2 }
    let wider : Limits := { maxDepth := 3 }
    let report := retrySchema.validate limits candidate
    (report.violations.map fun x => (x.path, x.kind)) =
        [([.key "name"], .missingRequiredField),
          ([.key "retry", .key "attempts"], .outOfRange)] ∧
      retrySchema.validate wider candidate = report := by
  intro candidate limits wider report
  have hdepth : limits.maxDepth ≤ wider.maxDepth := by decide
  have hlength : limits.maxArrayLength ≤ wider.maxArrayLength := by decide
  have hlimits : ∀ x ∈ report.violations, x.kind ≠ .limitExceeded := by decide +kernel
  exact ⟨by decide +kernel, (validate_wider retrySchema candidate hdepth hlength).1 hlimits⟩

end Schema

end PipelineConfig
