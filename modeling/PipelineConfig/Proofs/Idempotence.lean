import PipelineConfig.Proofs.Walk

/-!
# Validating twice

What a validation leaves behind is settled: validated again under the same limits
it stays as it is, key order included, and no default is used. If nothing in it
lies below the greatest depth, the same violations are found again.
-/

namespace PipelineConfig

/-- A second look changes nothing and uses no default; where a condition holds it
also blames the same. -/
structure Checked.SettledBy {α : Type} (second first : Checked α) (fits : Prop) : Prop where
  /-- The value stays. -/
  value : second.value = first.value
  /-- No default is used. -/
  defaulted : second.defaulted = []
  /-- The violations stay. -/
  violations : fits → second.violations = first.violations

namespace Schema

variable {limits : Limits} {node : Schema}

/-- The second look at a value follows the first: it looks at what that left. -/
def Settles (limits : Limits) (node : Schema) : Prop :=
  ∀ depth v,
    (node.examine limits depth (node.examine limits depth v).value).SettledBy
      (node.examine limits depth v)
      (depth + (node.examine limits depth v).value.height ≤ limits.maxDepth)

/-- A look that changes nothing settles at once. -/
theorem settledBy_self {depth : Nat} {v : Json} {fits : Prop}
    (hv : (node.examine limits depth v).value = v)
    (hd : (node.examine limits depth v).defaulted = []) :
    (node.examine limits depth (node.examine limits depth v).value).SettledBy
      (node.examine limits depth v) fits := by
  rw [hv]
  exact ⟨rfl, hd, fun _ => rfl⟩

theorem settles_given (h : node.Settles limits) (depth : Nat) (v : Json) :
    (node.examineGiven limits depth (node.examineGiven limits depth v).value).SettledBy
      (node.examineGiven limits depth v)
      (depth + (node.examineGiven limits depth v).value.height ≤ limits.maxDepth) := by
  by_cases hd : depth ≤ limits.maxDepth
  · simp only [examineGiven_of_le hd]
    exact h depth v
  · have hlt := Nat.not_le.mp hd
    simp only [examineGiven_of_lt hlt]
    exact ⟨rfl, rfl, fun _ => rfl⟩

/-- What was substituted for a field left out may lie below the greatest depth.
There a second look carries it over, which does not change it either. -/
theorem settles_substituted (h : node.Settles limits) (depth : Nat) (v : Json) :
    (node.examineGiven limits depth (node.examine limits depth v).value).SettledBy
      (node.examine limits depth v)
      (depth + (node.examine limits depth v).value.height ≤ limits.maxDepth) := by
  by_cases hd : depth ≤ limits.maxDepth
  · rw [examineGiven_of_le hd]
    exact h depth v
  · rw [examineGiven_of_lt (Nat.not_le.mp hd)]
    exact ⟨rfl, rfl, fun hfits => absurd hfits (by omega)⟩

theorem settles_field (h : node.Settles limits) (depth : Nat) (field : Option Json) :
    (node.examineField limits depth (node.examineField limits depth field).value).SettledBy
      (node.examineField limits depth field)
      (∀ w, (node.examineField limits depth field).value = some w →
        depth + w.height ≤ limits.maxDepth) := by
  cases field with
  | some v =>
    have hv := settles_given h depth v
    rw [examineField_some, examineField_some]
    exact ⟨congrArg some hv.value, hv.defaulted, fun hfits => hv.violations (hfits _ rfl)⟩
  | none =>
    cases hs : node.substitute with
    | default v =>
      have hv := settles_substituted h depth v
      rw [examineField_default hs, examineField_some]
      exact ⟨congrArg some hv.value, hv.defaulted, fun hfits => hv.violations (hfits _ rfl)⟩
    | missing =>
      rw [examineField_missing hs, examineField_missing hs]
      exact ⟨rfl, rfl, fun _ => rfl⟩
    | empty v =>
      have hv := settles_substituted h depth v
      rw [examineField_empty hs, examineField_some]
      exact ⟨congrArg some hv.value, hv.defaulted, fun hfits => hv.violations (hfits _ rfl)⟩
    | nothing =>
      rw [examineField_nothing hs, examineField_nothing hs]
      exact ⟨rfl, rfl, fun _ => rfl⟩

theorem settles_object {header : Header} {properties : List (String × Schema)}
    (hd : (properties.map Prod.fst).Nodup)
    (hp : ∀ name node, (name, node) ∈ properties →
      node.header.WellFormed ∧ node.Settles limits)
    (depth : Nat) (members : List (String × Json)) :
    ((object header properties).examine limits depth
        ((object header properties).examine limits depth (.object members)).value).SettledBy
      ((object header properties).examine limits depth (.object members))
      (depth + ((object header properties).examine limits depth (.object members)).value.height ≤
        limits.maxDepth) := by
  let value := fun name (node : Schema) =>
    (node.examineField limits (depth + 1) (fieldValue members name)).value
  let replaced := replaceDeclared value properties members
  have hsettled : ∀ name node, (name, node) ∈ properties →
      (node.examineField limits (depth + 1) (fieldValue replaced name)).SettledBy
        (node.examineField limits (depth + 1) (fieldValue members name))
        (∀ w, value name node = some w → depth + 1 + w.height ≤ limits.maxDepth) := by
    intro name node hm
    rw [fieldValue_examined hd hm (hp name node hm).1]
    exact settles_field (hp name node hm).2 (depth + 1) (fieldValue members name)
  have hv : ((object header properties).examine limits depth (.object members)).value =
      .object replaced := value_examine_object limits properties depth members header
  rw [hv]
  refine ⟨?_, ?_, ?_⟩
  · rw [value_examine_object, hv]
    have hsame := replaceDeclared_congr replaced fun name node hm => (hsettled name node hm).value
    rw [hsame]
    exact congrArg Json.object (replaceDeclared_replaceDeclared hd)
  · rw [defaulted_examine_object]
    refine List.flatMap_eq_nil_iff.mpr fun p hm => ?_
    rw [(hsettled p.1 p.2 hm).defaulted, List.map_nil]
  · intro hfits
    have hbelow : ∀ name node, (name, node) ∈ properties →
        ∀ w, value name node = some w → depth + 1 + w.height ≤ limits.maxDepth := by
      intro name node hm w hw
      have hin : (name, w) ∈ replaced := (mem_replaceDeclared hd hm).mpr hw
      have hlt := Json.heightOfMembers_le_iff.mp (Nat.le_refl (Json.object replaced).height) name w
        hin
      omega
    rw [violations_examine_object, violations_examine_object]
    congr 1
    · refine List.flatMap_congr fun p hm => ?_
      rw [(hsettled p.1 p.2 hm).violations (hbelow p.1 p.2 hm)]
    · rw [undeclared_replaceDeclared hd]

theorem settles_array {header : Header} {unique : Bool} {items : Schema}
    (hi : items.Settles limits) (depth : Nat) {elements : List Json}
    (hl : elements.length ≤ limits.maxArrayLength) :
    ((array header unique items).examine limits depth
        ((array header unique items).examine limits depth (.array elements)).value).SettledBy
      ((array header unique items).examine limits depth (.array elements))
      (depth + ((array header unique items).examine limits depth (.array elements)).value.height ≤
        limits.maxDepth) := by
  let look := items.examineGiven limits (depth + 1)
  let replaced := elements.map fun v => (look v).value
  have hsettled := settles_given hi (depth + 1)
  have hl' : replaced.length ≤ limits.maxArrayLength := by rwa [List.length_map]
  have hv : ((array header unique items).examine limits depth (.array elements)).value =
      .array replaced := value_examine_array hl
  have hagain : replaced.map (fun v => (look v).value) = replaced := by
    rw [List.map_map]
    exact List.map_congr_left fun v _ => (hsettled v).value
  rw [hv]
  refine ⟨?_, ?_, ?_⟩
  · rw [value_examine_array hl', hv]
    exact congrArg Json.array hagain
  · rw [defaulted_examine_array hl', List.zipIdx_map, List.flatMap_map]
    refine List.flatMap_eq_nil_iff.mpr fun p _ => ?_
    rw [Prod.map_fst, (hsettled p.1).defaulted, List.map_nil]
  · intro hfits
    have hbelow : ∀ v ∈ elements, depth + 1 + (look v).value.height ≤ limits.maxDepth := by
      intro v hm
      have hlt := Json.heightOfElements_le_iff.mp (Nat.le_refl (Json.array replaced).height)
        (look v).value (List.mem_map.mpr ⟨v, hm, rfl⟩)
      omega
    rw [violations_examine_array hl', violations_examine_array hl]
    congr 1
    · rw [List.zipIdx_map, List.flatMap_map]
      refine List.flatMap_congr fun p hm => ?_
      have hmem : p.1 ∈ elements := List.fst_mem_of_mem_zipIdx hm
      rw [Prod.map_fst, (hsettled p.1).violations (hbelow p.1 hmem)]
      rfl
    · change (if unique then duplicates (replaced.map fun v => (look v).value) else []) = _
      rw [hagain]

/-- Every look at a value settles, at every depth. -/
theorem settles_of_wellFormed (hn : node.WellFormed) : node.Settles limits := by
  intro depth v
  induction node, v using inductionAlong generalizing depth with
  | other node v hk =>
    apply settledBy_self
    · rw [examine_of_not_admits hk, Limits.value_mismatch]
    · rw [examine_of_not_admits hk, Limits.defaulted_mismatch]
  | leaf header type allowed v hk => apply settledBy_self <;> rw [examine_leaf hk]
  | openObject header members =>
    apply settledBy_self
    · rw [examine_openObject, Limits.value_carry]
    · rw [examine_openObject, Limits.defaulted_carry]
  | object header properties members ih =>
    cases hn with
    | object _ hd hp =>
      refine settles_object hd (fun name node hm => ?_) depth members
      exact ⟨(hp name node hm).header, fun depth v => ih name node hm v (hp name node hm) depth⟩
  | array header unique items elements ih =>
    cases hn with
    | array _ hi =>
      by_cases hl : elements.length ≤ limits.maxArrayLength
      · exact settles_array (fun depth v => ih v hi depth) depth hl
      · apply settledBy_self <;> rw [examine_array_of_lt (Nat.not_le.mp hl)]

/-- Validating what a validation leaves behind changes nothing and uses no default.
If no value in it lies below the greatest depth, the same violations are found, in
the same order. -/
theorem validate_normalized {path : String} {definition : Json}
    (hd : definition.WellKeyed) (hn : Schema.ofJson path definition = .ok node)
    (limits : Limits) (candidate : Json) :
    let first := node.validate limits candidate
    let second := node.validate limits first.normalized
    second.normalized = first.normalized ∧ second.defaulted = [] ∧
      ((∀ place v, first.normalized.Holds place v → place.depth ≤ limits.maxDepth) →
        second.violations = first.violations) := by
  have hw := wellFormed_of_ofJson hd hn
  intro first second
  let found := node.examineField limits 0 candidate.asField
  have hfirst : first = ⟨found.value.getD .null, found.violations, found.defaulted⟩ :=
    validate_eq limits node candidate
  have hgiven : first.normalized.asField = found.value := by
    rw [hfirst]
    change (found.value.getD .null).asField = found.value
    cases hv : found.value with
    | none => rfl
    | some w =>
      have hnull : w.isNull = false :=
        isNull_examineField (fun v hm => (hw.header v hm).2) (fun v hc => isNull_of_asField hc) hv
      exact Json.asField_of_not_null hnull
  have hsettles : node.Settles limits := settles_of_wellFormed hw
  have hsettled := settles_field hsettles 0 candidate.asField
  have hsecond : second =
      ⟨(node.examineField limits 0 found.value).value.getD .null,
        (node.examineField limits 0 found.value).violations,
        (node.examineField limits 0 found.value).defaulted⟩ := by
    rw [← hgiven]
    exact validate_eq limits node first.normalized
  rw [hsecond, hfirst]
  refine ⟨congrArg (Option.getD · Json.null) hsettled.value, hsettled.defaulted, ?_⟩
  intro hplaces
  apply hsettled.violations
  intro w hv
  have hheight : (found.value.getD .null).height ≤ limits.maxDepth :=
    Json.height_le_iff.mpr hplaces
  change found.value = some w at hv
  rw [hv] at hheight
  simpa using hheight

/-- A missing name and a repeated tag are blamed again after the nested defaults are
filled in. -/
theorem validate_normalized_retry :
    let candidate := Json.object [("extra", .array [.array []]), ("name", .null),
      ("tags", .array [.string "a", .string "a"])]
    let first := retrySchema.validate { maxDepth := 2 } candidate
    let second := retrySchema.validate { maxDepth := 2 } first.normalized
    second.normalized = first.normalized ∧ second.defaulted = [] ∧
      second.violations = first.violations ∧ first.violations.length = 2 := by
  intro candidate first second
  obtain ⟨hv, hd, hsame⟩ := validate_normalized wellKeyed_retryDefinition
    (ofJson_retryDefinition "retry") { maxDepth := 2 } candidate
  have hheight : first.normalized.height ≤ 2 := by decide
  exact ⟨hv, hd, hsame (Json.height_le_iff.mp hheight), by decide +kernel⟩

end Schema

end PipelineConfig
