import PipelineConfig.Proofs.Findings
import PipelineConfig.Proofs.WiderLimits

/-!
# Fields that a null clears

A null given for a declared field clears the field. A configuration can be pruned of all
such nulls, along its schema and at every depth; the nulls of elements, of undeclared
members and of whatever no node describes are values and stay. Unless a limit is met, the
pruned configuration gets the same report. A limit may be met by the null itself, which
can lie too deep.
-/

namespace PipelineConfig

namespace Schema

mutual

/-- The value without the nulls that clear declared fields, as far as the node describes it. -/
def prune : Schema → Json → Json
  | object _ properties, .object members => .object (Members.revise (pruneField properties) members)
  | array _ _ items, .array elements => .array (elements.map fun v => prune items v)
  | _, v => v

/-- The value of a member, pruned along the field of its name, or nothing if it clears it. -/
def pruneField : List (String × Schema) → String → Json → Option Json
  | [], _, v => some v
  | (declared, node) :: rest, name, v =>
    if declared = name then (if v.isNull then none else some (prune node v))
    else pruneField rest name v

end

variable {limits : Limits} {depth : Nat} {node : Schema} {v : Json}

theorem prune_object {header : Header} {properties : List (String × Schema)}
    {members : List (String × Json)} :
    (object header properties).prune (.object members) =
      .object (Members.revise (pruneField properties) members) := rfl

theorem prune_array {header : Header} {unique : Bool} {items : Schema} {elements : List Json} :
    (array header unique items).prune (.array elements) = .array (elements.map items.prune) := rfl

theorem prune_of_not_admits (h : node.kind.admits v = false) : node.prune v = v := by
  cases node with
  | leaf | openObject => rfl
  | object =>
    cases v with
    | object => cases h
    | _ => rfl
  | array =>
    cases v with
    | array => cases h
    | _ => rfl

theorem isNull_prune : (node.prune v).isNull = v.isNull := by
  cases node <;> cases v <;> rfl

/-- A pruned candidate stands for its field, pruned. -/
theorem asField_prune : (node.prune v).asField = v.asField.map node.prune := by
  rw [Json.asField, isNull_prune, Json.asField]
  cases v.isNull <;> rfl

section Fields

variable {properties : List (String × Schema)} {members : List (String × Json)} {name : String}

theorem pruneField_of_mem (hd : (properties.map Prod.fst).Nodup) (hm : (name, node) ∈ properties) :
    pruneField properties name v = if v.isNull then none else some (node.prune v) := by
  induction properties with
  | nil => cases hm
  | cons head rest ih =>
    obtain ⟨habsent, hrest⟩ := List.nodup_cons.mp hd
    obtain ⟨declared, other⟩ := head
    rw [pruneField]
    rcases List.mem_cons.mp hm with he | hm
    · cases he
      rw [if_pos rfl]
    · have hne : declared ≠ name := by
        rintro rfl
        exact habsent (Members.mem_keys hm)
      rw [if_neg hne, ih hrest hm]

theorem pruneField_of_not_mem (hm : name ∉ properties.map Prod.fst) :
    pruneField properties name v = some v := by
  induction properties with
  | nil => rfl
  | cons head rest ih =>
    obtain ⟨declared, other⟩ := head
    rw [List.map_cons, List.mem_cons, not_or] at hm
    rw [pruneField, if_neg (Ne.symm hm.1), ih hm.2]

/-- What is left of a declared field is its value, pruned. -/
theorem fieldValue_pruned (hd : (properties.map Prod.fst).Nodup) (hm : (name, node) ∈ properties)
    (hkeys : (members.map Prod.fst).Nodup) :
    fieldValue (Members.revise (pruneField properties) members) name =
      (fieldValue members name).map node.prune := by
  rw [fieldValue, Members.lookup_revise hkeys, fieldValue]
  cases members.lookup name with
  | none => rfl
  | some v =>
    rw [Option.bind_some, pruneField_of_mem hd hm]
    cases hv : v.isNull with
    | true =>
      rw [if_pos rfl, Option.filter_some_neg (by simp [hv])]
      rfl
    | false =>
      rw [if_neg Bool.false_ne_true, Option.filter_some_pos (by simp [isNull_prune, hv]),
        Option.filter_some_pos (by simp [hv]), Option.map_some]

/-- Undeclared members stay as they are. -/
theorem undeclared_pruned :
    undeclared properties (Members.revise (pruneField properties) members) =
      undeclared properties members := by
  rw [undeclared_revise]
  exact Members.revise_eq_self fun name v hm => pruneField_of_not_mem (mem_undeclared.mp hm).2

end Fields

theorem examineGiven_pruned
    (h : (node.examine limits depth v).WithinLimits →
      node.examine limits depth (node.prune v) = node.examine limits depth v)
    (hw : (node.examineGiven limits depth v).WithinLimits) :
    node.examineGiven limits depth (node.prune v) = node.examineGiven limits depth v := by
  obtain ⟨hdepth, hlook⟩ := withinLimits_examineGiven.mp hw
  rw [examineGiven_of_le hdepth, examineGiven_of_le hdepth, h hlook]

/-- A field is looked at as before when its value is pruned. -/
theorem examineField_pruned {field : Option Json}
    (h : ∀ v, field = some v → (node.examine limits depth v).WithinLimits →
      node.examine limits depth (node.prune v) = node.examine limits depth v)
    (hw : (node.examineField limits depth field).WithinLimits) :
    node.examineField limits depth (field.map node.prune) =
      node.examineField limits depth field := by
  cases field with
  | none => rfl
  | some v =>
    rw [Option.map_some, examineField_some_eq, examineField_some_eq,
      examineGiven_pruned (h v rfl) (findsOnly_examineField_some.mp hw)]

theorem examine_pruned_object {header : Header} {properties : List (String × Schema)}
    {members : List (String × Json)} (hd : (properties.map Prod.fst).Nodup)
    (hkeys : (members.map Prod.fst).Nodup)
    (h : ∀ name child, (name, child) ∈ properties → ∀ v, (name, v) ∈ members →
      (child.examine limits (depth + 1) v).WithinLimits →
      child.examine limits (depth + 1) (child.prune v) = child.examine limits (depth + 1) v)
    (hw : ((object header properties).examine limits depth (.object members)).WithinLimits) :
    (object header properties).examine limits depth ((object header properties).prune
      (.object members)) = (object header properties).examine limits depth (.object members) := by
  have hfield : ∀ name child, (name, child) ∈ properties →
      child.examineField limits (depth + 1)
          (fieldValue (Members.revise (pruneField properties) members) name) =
        child.examineField limits (depth + 1) (fieldValue members name) := by
    intro name child hm
    rw [fieldValue_pruned hd hm hkeys]
    refine examineField_pruned (fun v hv => ?_) ((findsOnly_examine_object.mp hw).1 name child hm)
    exact h name child hm v (mem_of_fieldValue hv)
  rw [prune_object]
  apply Checked.eq_of
  · rw [value_examine_object, value_examine_object, replaceDeclared, undeclared_pruned]
    refine congrArg Json.object ?_
    rw [← replaceDeclared]
    exact replaceDeclared_congr members fun name child hm => by rw [hfield name child hm]
  · rw [violations_examine_object, violations_examine_object, undeclared_pruned]
    congr 1
    exact List.flatMap_congr fun p hp => by rw [hfield p.1 p.2 hp]
  · rw [defaulted_examine_object, defaulted_examine_object]
    exact List.flatMap_congr fun p hp => by rw [hfield p.1 p.2 hp]

theorem examine_pruned_array {header : Header} {unique : Bool} {items : Schema}
    {elements : List Json}
    (h : ∀ v ∈ elements, (items.examine limits (depth + 1) v).WithinLimits →
      items.examine limits (depth + 1) (items.prune v) = items.examine limits (depth + 1) v)
    (hw : ((array header unique items).examine limits depth (.array elements)).WithinLimits) :
    (array header unique items).examine limits depth ((array header unique items).prune
      (.array elements)) = (array header unique items).examine limits depth (.array elements) := by
  have hl := length_le_of_withinLimits hw
  have hl' : (elements.map items.prune).length ≤ limits.maxArrayLength := by
    rwa [List.length_map]
  have helement : ∀ v ∈ elements, items.examineGiven limits (depth + 1) (items.prune v) =
      items.examineGiven limits (depth + 1) v :=
    fun v hm => examineGiven_pruned (h v hm) (((findsOnly_examine_array hl).mp hw).1 v hm)
  have hvalues : ((elements.map items.prune).map fun v =>
      (items.examineGiven limits (depth + 1) v).value) =
      elements.map fun v => (items.examineGiven limits (depth + 1) v).value := by
    rw [List.map_map]
    exact List.map_congr_left fun v hm => by rw [Function.comp_apply, helement v hm]
  rw [prune_array]
  apply Checked.eq_of
  · rw [value_examine_array hl, value_examine_array hl', hvalues]
  · rw [violations_examine_array hl, violations_examine_array hl', hvalues, List.zipIdx_map,
      List.flatMap_map]
    congr 1
    exact List.flatMap_congr fun p hp => by
      rw [Prod.map_fst, helement p.1 (List.fst_mem_of_mem_zipIdx hp)]
      rfl
  · rw [defaulted_examine_array hl, defaulted_examine_array hl', List.zipIdx_map,
      List.flatMap_map]
    exact List.flatMap_congr fun p hp => by
      rw [Prod.map_fst, helement p.1 (List.fst_mem_of_mem_zipIdx hp)]
      rfl

/-- A value that meets no limit is looked at as before when it is pruned. -/
theorem examine_pruned (hn : node.WellFormed) (hv : v.WellKeyed)
    (hw : (node.examine limits depth v).WithinLimits) :
    node.examine limits depth (node.prune v) = node.examine limits depth v := by
  induction node, v using inductionAlong generalizing depth with
  | other node v hk => rw [prune_of_not_admits hk]
  | leaf | openObject => rfl
  | object header properties members ih =>
    cases hn with
    | object _ hd hp =>
      cases hv with
      | object hkeys hvalues =>
        exact examine_pruned_object hd hkeys (fun name child hm v hin hlook =>
          ih name child hm v (hp name child hm) (hvalues name v hin) hlook) hw
  | array header unique items elements ih =>
    cases hn with
    | array _ hi =>
      cases hv with
      | array hvalues =>
        exact examine_pruned_array (fun v hin hlook => ih v hi (hvalues v hin) hlook) hw

/-- A null given for a declared field is the same as leaving the field out, at every depth
and for any number of such nulls, unless a limit is met. -/
theorem validate_pruned {path : String} {definition : Json} (hd : definition.WellKeyed)
    {node : Schema} (hn : ofJson path definition = .ok node) {limits : Limits} {candidate : Json}
    (hc : candidate.WellKeyed)
    (hlimits : ∀ x ∈ (node.validate limits candidate).violations, x.kind ≠ .limitExceeded) :
    node.validate limits (node.prune candidate) = node.validate limits candidate := by
  have hfield : node.examineField limits 0 (node.prune candidate).asField =
      node.examineField limits 0 candidate.asField := by
    rw [asField_prune]
    refine examineField_pruned (fun v hv hlook => ?_) hlimits
    rw [Json.eq_of_asField hv] at hlook ⊢
    exact examine_pruned (wellFormed_of_ofJson hd hn) hc hlook
  rw [validate_eq, validate_eq, hfield]

/-- A cleared name is missing, a cleared pause takes its default, and cleared attempts are
left out. The null among the tags stays. -/
theorem validate_pruned_retry :
    let candidate := Json.object [("name", .null), ("extra", .null),
      ("retry", .object [("pause", .null), ("attempts", .null)]), ("tags", .array [.null])]
    let pruned := Json.object [("extra", .null), ("retry", .object []), ("tags", .array [.null])]
    let report := retrySchema.validate {} candidate
    candidate.WellKeyed ∧ retrySchema.prune candidate = pruned ∧
      (report.violations.map fun x => (x.path, x.kind)) =
        [([.key "name"], .missingRequiredField), ([.key "tags", .index 0], .typeMismatch)] ∧
      report.defaulted = [[.key "retry", .key "pause"]] ∧
      retrySchema.validate {} pruned = report := by
  intro candidate pruned report
  have hc : candidate.WellKeyed := by decide
  have hlimits : ∀ x ∈ report.violations, x.kind ≠ .limitExceeded := by decide +kernel
  exact ⟨hc, rfl, by decide +kernel, by decide +kernel,
    validate_pruned wellKeyed_retryDefinition (ofJson_retryDefinition "retry") hc hlimits⟩

end Schema

end PipelineConfig
