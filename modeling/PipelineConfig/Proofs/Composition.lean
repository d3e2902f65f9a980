import PipelineConfig.Proofs.WiderLimits

/-!
# Validation by parts

How deep a value lies matters only for the levels that are left below it. A look some
levels further in is a look from the top under limits that lack these levels, except
that a violation about the depth quotes the limits of the whole validation. So the
report of an object is put together from the reports of its fields, and that of an
array from the reports of its elements, each validated on its own with one level less.
-/

namespace PipelineConfig

namespace Limits

/-- The limits that are left so many levels further in. -/
def inside (limits : Limits) (levels : Nat) : Limits :=
  { limits with maxDepth := limits.maxDepth - levels }

/-- A value at the end of the path lies, or reaches, below the greatest depth. -/
def tooDeepAt (limits : Limits) (path : Path) : Violation := { limits.tooDeep with path := path }

/-- A violation found under the limits that are left so many levels further in, as it is
found under the whole limits: one about the depth quotes these. -/
def requote (limits : Limits) (levels : Nat) (x : Violation) : Violation :=
  if x = (limits.inside levels).tooDeepAt x.path then limits.tooDeepAt x.path else x

variable {limits : Limits} {levels : Nat}

theorem requote_tooDeep : limits.requote levels (limits.inside levels).tooDeep = limits.tooDeep :=
  if_pos rfl

theorem requote_of_kind_ne {x : Violation} (h : x.kind ≠ .limitExceeded) :
    limits.requote levels x = x := by
  have hne : ¬ x = (limits.inside levels).tooDeepAt x.path := fun he =>
    h (congrArg Violation.kind he)
  rw [requote, if_neg hne]

/-- A violation about a length says nothing about the depth. -/
theorem requote_tooLong (length : Nat) :
    limits.requote levels (limits.tooLong length) = limits.tooLong length := by
  have hne : ¬ limits.tooLong length =
      (limits.inside levels).tooDeepAt (limits.tooLong length).path := by
    intro he
    have hletter := congrArg (fun x : Violation => x.expected.toList.head?) he
    simp [tooLong, tooDeepAt, tooDeep, Violation.limitExceeded] at hletter
  rw [requote, if_neg hne]

theorem requote_under (step : Step) (x : Violation) :
    limits.requote levels (x.under step) = (limits.requote levels x).under step := by
  have hiff : x.under step = (limits.inside levels).tooDeepAt (x.under step).path ↔
      x = (limits.inside levels).tooDeepAt x.path := by
    cases x
    simp [Violation.under, tooDeepAt]
  by_cases h : x = (limits.inside levels).tooDeepAt x.path
  · rw [requote, requote, if_pos h, if_pos (hiff.mpr h)]
    rfl
  · rw [requote, requote, if_neg h, if_neg fun he => h (hiff.mp he)]

theorem map_requote {found : List Violation} (h : ∀ x ∈ found, x.kind ≠ .limitExceeded) :
    found.map (limits.requote levels) = found := by
  have hid : ∀ x ∈ found, limits.requote levels x = id x := fun x hx => requote_of_kind_ne (h x hx)
  rw [List.map_congr_left hid, List.map_id]

theorem map_requote_flatMap {α : Type} (l : List α) (step : α → Step)
    (found : α → List Violation) :
    (l.flatMap fun a => (found a).map (Violation.under (step a))).map (limits.requote levels) =
      l.flatMap fun a =>
        ((found a).map (limits.requote levels)).map (Violation.under (step a)) := by
  rw [List.map_flatMap]
  refine List.flatMap_congr fun a _ => ?_
  rw [List.map_map, List.map_map]
  exact List.map_congr_left fun x _ => requote_under (step a) x

end Limits

namespace Checked

variable {α : Type} (limits : Limits) (levels : Nat) (c : Checked α)

/-- What is found under the limits that are left so many levels further in, as it is found
under the whole limits. -/
def requoted : Checked α := ⟨c.value, c.violations.map (limits.requote levels), c.defaulted⟩

@[simp] theorem value_requoted : (c.requoted limits levels).value = c.value := rfl

@[simp] theorem violations_requoted :
    (c.requoted limits levels).violations = c.violations.map (limits.requote levels) := rfl

@[simp] theorem defaulted_requoted : (c.requoted limits levels).defaulted = c.defaulted := rfl

end Checked

namespace Limits

variable {limits : Limits} {levels : Nat} (h : levels ≤ limits.maxDepth) (depth : Nat) (v : Json)

include h

theorem carry_inside : limits.carry (depth + levels) v =
    ((limits.inside levels).carry depth v).requoted limits levels := by
  have hleft : (limits.inside levels).maxDepth = limits.maxDepth - levels := rfl
  rw [carry_eq, carry_eq]
  by_cases hdeep : limits.maxDepth < depth + levels + v.height
  · have hdeep' : (limits.inside levels).maxDepth < depth + v.height := by omega
    rw [if_pos hdeep, if_pos hdeep', Checked.requoted, List.map_singleton, requote_tooDeep]
  · have hdeep' : ¬ (limits.inside levels).maxDepth < depth + v.height := by omega
    rw [if_neg hdeep, if_neg hdeep']
    rfl

theorem mismatch_inside (kind : Kind) : limits.mismatch (depth + levels) kind v =
    ((limits.inside levels).mismatch depth kind v).requoted limits levels := by
  have hkind : limits.requote levels (.typeMismatch .root kind.name v.typeName) =
      .typeMismatch .root kind.name v.typeName := requote_of_kind_ne nofun
  apply Checked.eq_of
  · rw [value_mismatch, Checked.value_requoted, value_mismatch]
  · rw [violations_mismatch, carry_inside h, Checked.violations_requoted,
      Checked.violations_requoted, violations_mismatch, List.map_cons, hkind]
  · rw [defaulted_mismatch, Checked.defaulted_requoted, defaulted_mismatch]

end Limits

namespace Schema

variable {limits : Limits} {levels : Nat} {node : Schema}

/-- A look at the node so many levels further in is a look under the limits that are left
there. -/
def Descends (limits : Limits) (levels : Nat) (node : Schema) : Prop :=
  ∀ depth v, node.examine limits (depth + levels) v =
    (node.examine (limits.inside levels) depth v).requoted limits levels

section Parts

variable (h : levels ≤ limits.maxDepth) (hnode : node.Descends limits levels) (depth : Nat)

include h hnode

theorem examineGiven_inside (v : Json) : node.examineGiven limits (depth + levels) v =
    (node.examineGiven (limits.inside levels) depth v).requoted limits levels := by
  have hleft : (limits.inside levels).maxDepth = limits.maxDepth - levels := rfl
  by_cases hdeep : limits.maxDepth < depth + levels
  · have hdeep' : (limits.inside levels).maxDepth < depth := by omega
    rw [examineGiven_of_lt hdeep, examineGiven_of_lt hdeep', Checked.requoted, List.map_singleton,
      Limits.requote_tooDeep]
  · have hle : depth + levels ≤ limits.maxDepth := by omega
    have hle' : depth ≤ (limits.inside levels).maxDepth := by omega
    rw [examineGiven_of_le hle, examineGiven_of_le hle', hnode depth v]

theorem examineField_inside (field : Option Json) :
    node.examineField limits (depth + levels) field =
      (node.examineField (limits.inside levels) depth field).requoted limits levels := by
  cases field with
  | some v =>
    rw [examineField_some, examineField_some, examineGiven_inside h hnode depth v]
    rfl
  | none =>
    cases hs : node.substitute with
    | default v =>
      rw [examineField_default hs, examineField_default hs, hnode depth v]
      rfl
    | empty v =>
      rw [examineField_empty hs, examineField_empty hs, hnode depth v]
      rfl
    | missing =>
      have hkind : limits.requote levels (.missingField .root) = .missingField .root :=
        Limits.requote_of_kind_ne nofun
      rw [examineField_missing hs, examineField_missing hs, Checked.requoted, List.map_singleton,
        hkind]
    | nothing =>
      rw [examineField_nothing hs, examineField_nothing hs]
      rfl

end Parts

theorem descends_object {header : Header} {properties : List (String × Schema)}
    (h : levels ≤ limits.maxDepth)
    (hp : ∀ name child, (name, child) ∈ properties → child.Descends limits levels) (depth : Nat)
    (members : List (String × Json)) :
    (object header properties).examine limits (depth + levels) (.object members) =
      ((object header properties).examine (limits.inside levels) depth (.object members)).requoted
        limits levels := by
  have hdepth : depth + levels + 1 = depth + 1 + levels := by omega
  have hfield : ∀ p ∈ properties,
      p.2.examineField limits (depth + levels + 1) (fieldValue members p.1) =
        (p.2.examineField (limits.inside levels) (depth + 1) (fieldValue members p.1)).requoted
          limits levels := by
    intro p hm
    rw [hdepth]
    exact examineField_inside h (hp p.1 p.2 hm) (depth + 1) _
  have hothers : ∀ m ∈ undeclared properties members, limits.carry (depth + levels + 1) m.2 =
      ((limits.inside levels).carry (depth + 1) m.2).requoted limits levels := by
    intro m _
    rw [hdepth]
    exact Limits.carry_inside h (depth + 1) m.2
  apply Checked.eq_of
  · rw [Checked.value_requoted, value_examine_object, value_examine_object]
    refine congrArg Json.object (replaceDeclared_congr members fun name child hm => ?_)
    rw [hfield (name, child) hm, Checked.value_requoted]
  · rw [Checked.violations_requoted, violations_examine_object, violations_examine_object,
      List.map_append, Limits.map_requote_flatMap, Limits.map_requote_flatMap]
    congr 1
    · exact List.flatMap_congr fun p hm => by rw [hfield p hm, Checked.violations_requoted]
    · exact List.flatMap_congr fun m hm => by rw [hothers m hm, Checked.violations_requoted]
  · rw [Checked.defaulted_requoted, defaulted_examine_object, defaulted_examine_object]
    exact List.flatMap_congr fun p hm => by rw [hfield p hm, Checked.defaulted_requoted]

theorem descends_array {header : Header} {unique : Bool} {items : Schema}
    (h : levels ≤ limits.maxDepth) (hi : items.Descends limits levels) (depth : Nat)
    {elements : List Json} (hl : elements.length ≤ limits.maxArrayLength) :
    (array header unique items).examine limits (depth + levels) (.array elements) =
      ((array header unique items).examine (limits.inside levels) depth (.array elements)).requoted
        limits levels := by
  have hl' : elements.length ≤ (limits.inside levels).maxArrayLength := hl
  have hdepth : depth + levels + 1 = depth + 1 + levels := by omega
  have helement : ∀ v, items.examineGiven limits (depth + levels + 1) v =
      (items.examineGiven (limits.inside levels) (depth + 1) v).requoted limits levels := by
    intro v
    rw [hdepth]
    exact examineGiven_inside h hi (depth + 1) v
  have hvalues : (elements.map fun v => (items.examineGiven limits (depth + levels + 1) v).value) =
      elements.map fun v => (items.examineGiven (limits.inside levels) (depth + 1) v).value :=
    List.map_congr_left fun v _ => by rw [helement v, Checked.value_requoted]
  apply Checked.eq_of
  · rw [Checked.value_requoted, value_examine_array hl, value_examine_array hl', hvalues]
  · rw [Checked.violations_requoted, violations_examine_array hl, violations_examine_array hl',
      List.map_append, Limits.map_requote_flatMap, hvalues]
    congr 1
    · exact List.flatMap_congr fun p _ => by rw [helement p.1, Checked.violations_requoted]
    · cases unique with
      | false => rfl
      | true =>
        refine (Limits.map_requote fun x hx => ?_).symm
        rw [kind_of_mem_duplicates hx]
        exact nofun
  · rw [Checked.defaulted_requoted, defaulted_examine_array hl, defaulted_examine_array hl']
    exact List.flatMap_congr fun p _ => by rw [helement p.1, Checked.defaulted_requoted]

/-- Every look descends. Nothing but the levels that are left, and the depth that is
quoted, depends on how deep it starts. -/
theorem descends (h : levels ≤ limits.maxDepth) (node : Schema) : node.Descends limits levels := by
  intro depth v
  induction node, v using inductionAlong generalizing depth with
  | other node v hk =>
    rw [examine_of_not_admits hk, examine_of_not_admits hk, Limits.mismatch_inside h]
  | leaf header type allowed v hk =>
    have hwithin : ((leaf header type allowed).examine limits (depth + levels) v).WithinLimits :=
      withinLimits_examine_leaf hk
    rw [examine_leaf hk] at hwithin ⊢
    rw [examine_leaf hk, Checked.requoted, Limits.map_requote hwithin]
  | openObject header members =>
    rw [examine_openObject, examine_openObject, Limits.carry_inside h]
  | object header properties members ih =>
    exact descends_object h (fun name child hm depth v => ih name child hm v depth) depth members
  | array header unique items elements ih =>
    by_cases hl : elements.length ≤ limits.maxArrayLength
    · exact descends_array h (fun depth v => ih v depth) depth hl
    · have hlong : limits.maxArrayLength < elements.length := Nat.not_le.mp hl
      have hlong' : (limits.inside levels).maxArrayLength < elements.length := hlong
      have hlength : limits.requote levels ((limits.inside levels).tooLong elements.length) =
          limits.tooLong elements.length := Limits.requote_tooLong elements.length
      rw [examine_array_of_lt hlong, examine_array_of_lt hlong', Checked.requoted,
        List.map_singleton, hlength]

end Schema

/-- The report of a declared field, validated on its own with one level less. A member
that is not there counts as a null. -/
def fieldReport (limits : Limits) (members : List (String × Json)) (field : String × Schema) :
    Report :=
  field.2.validate (limits.inside 1) ((members.lookup field.1).getD .null)

namespace Report

/-- The report is that of an object, put together from the reports of its fields. -/
structure OfFields (limits : Limits) (properties : List (String × Schema))
    (members : List (String × Json)) (report : Report) : Prop where
  /-- The fields are blamed in the order of their declarations. Then every undeclared
  member that reaches below the greatest depth is blamed once, in the order given. -/
  violations : report.violations =
    (properties.flatMap fun p => (fieldReport limits members p).violations.map fun x =>
      (limits.requote 1 x).under (.key p.1)) ++
    (((undeclared properties members).filter fun m => limits.maxDepth - 1 < m.2.height).map
      fun m => limits.tooDeepAt [.key m.1])
  /-- The places of used defaults are those of the fields. -/
  defaulted : report.defaulted =
    properties.flatMap fun p => (fieldReport limits members p).defaulted.map (Step.key p.1 :: ·)
  /-- The fields that are not null come first, then the undeclared members as they are. -/
  normalized : report.normalized = .object
    ((properties.filterMap fun p =>
      (fieldReport limits members p).normalized.asField.map fun v => (p.1, v)) ++
    undeclared properties members)

/-- The report is that of an array, put together from the reports of its elements. -/
structure OfElements (limits : Limits) (unique : Bool) (items : Schema) (elements : List Json)
    (report : Report) : Prop where
  /-- The elements are blamed in their order, and then those that repeat an earlier one. -/
  violations : report.violations =
    (elements.zipIdx.flatMap fun p => (items.validate (limits.inside 1) p.1).violations.map fun x =>
      (limits.requote 1 x).under (.index p.2)) ++
    (if unique then
      duplicates (elements.map fun v => (items.validate (limits.inside 1) v).normalized)
    else [])
  /-- The places of used defaults are those of the elements. -/
  defaulted : report.defaulted =
    elements.zipIdx.flatMap fun p =>
      (items.validate (limits.inside 1) p.1).defaulted.map (Step.index p.2 :: ·)
  /-- The elements stay in their order. -/
  normalized : report.normalized =
    .array (elements.map fun v => (items.validate (limits.inside 1) v).normalized)

end Report

/-- A member that is null or not there leaves its field out. -/
theorem asField_getD_lookup (members : List (String × Json)) (name : String) :
    ((members.lookup name).getD .null).asField = fieldValue members name := by
  rw [fieldValue]
  cases members.lookup name with
  | none => rfl
  | some v => cases v <;> rfl

/-- Members carried over are blamed one by one, if something in them lies too deep. -/
theorem Limits.violations_carried {limits : Limits} (h : 1 ≤ limits.maxDepth)
    (members : List (String × Json)) :
    (members.flatMap fun m => (limits.carry 1 m.2).violations.map (Violation.under (.key m.1))) =
      (members.filter fun m => limits.maxDepth - 1 < m.2.height).map
        fun m => limits.tooDeepAt [.key m.1] := by
  induction members with
  | nil => rfl
  | cons head rest ih =>
    rw [List.flatMap_cons, ih, violations_carry]
    by_cases hdeep : limits.maxDepth < 1 + head.2.height
    · have hleft : decide (limits.maxDepth - 1 < head.2.height) = true := by
        rw [decide_eq_true_iff]
        omega
      rw [if_pos hdeep, List.filter_cons, if_pos hleft]
      rfl
    · have hleft : ¬ decide (limits.maxDepth - 1 < head.2.height) = true := by
        rw [decide_eq_true_iff]
        omega
      rw [if_neg hdeep, List.filter_cons, if_neg hleft]
      rfl

namespace Schema

section Reports

variable {limits : Limits} (h : 1 ≤ limits.maxDepth)

include h

/-- A field one level down is looked at as it is validated on its own. -/
theorem examineField_eq_report {node : Schema} (hn : node.header.WellFormed) (candidate : Json) :
    node.examineField limits 1 candidate.asField =
      ⟨(node.validate (limits.inside 1) candidate).normalized.asField,
        (node.validate (limits.inside 1) candidate).violations.map (limits.requote 1),
        (node.validate (limits.inside 1) candidate).defaulted⟩ := by
  have hinside := examineField_inside h (descends h node) 0 candidate.asField
  rw [Nat.zero_add] at hinside
  rw [hinside, asField_normalized hn, validate_eq]
  rfl

/-- So is an element that is not null. -/
theorem examineGiven_eq_report (node : Schema) {v : Json} (hv : v.isNull = false) :
    node.examineGiven limits 1 v =
      ⟨(node.validate (limits.inside 1) v).normalized,
        (node.validate (limits.inside 1) v).violations.map (limits.requote 1),
        (node.validate (limits.inside 1) v).defaulted⟩ := by
  have hinside := examineGiven_inside h (descends h node) 0 v
  rw [Nat.zero_add, examineGiven_of_le (Nat.zero_le _)] at hinside
  rw [hinside, validate_of_not_null hv]
  rfl

/-- The report of an object, by the reports of its declared fields. -/
theorem ofFields_validate {header : Header} {properties : List (String × Schema)}
    (hn : (object header properties).WellFormed) (members : List (String × Json)) :
    ((object header properties).validate limits (.object members)).OfFields limits properties
      members := by
  have hreport : (object header properties).validate limits (.object members) = _ :=
    validate_of_not_null rfl
  rw [hreport]
  cases hn with
  | object _ hd hp =>
    have hfield : ∀ p ∈ properties, p.2.examineField limits 1 (fieldValue members p.1) =
        ⟨(fieldReport limits members p).normalized.asField,
          (fieldReport limits members p).violations.map (limits.requote 1),
          (fieldReport limits members p).defaulted⟩ := by
      intro p hm
      rw [← asField_getD_lookup]
      exact examineField_eq_report h (hp p.1 p.2 hm).header _
    refine ⟨?_, ?_, ?_⟩ <;> dsimp only
    · rw [violations_examine_object, Nat.zero_add, Limits.violations_carried h]
      congr 1
      refine List.flatMap_congr fun p hm => ?_
      rw [hfield p hm, List.map_map]
      rfl
    · rw [defaulted_examine_object, Nat.zero_add]
      exact List.flatMap_congr fun p hm => by rw [hfield p hm]
    · rw [value_examine_object, Nat.zero_add, replaceDeclared_eq hd, declaredMembers]
      congr 2
      exact List.filterMap_congr fun p hm => by rw [hfield p hm]

/-- The report of an array, by the reports of its elements. -/
theorem ofElements_validate (header : Header) (unique : Bool) (items : Schema)
    {elements : List Json} (hl : elements.length ≤ limits.maxArrayLength)
    (hv : ∀ v ∈ elements, v.isNull = false) :
    ((array header unique items).validate limits (.array elements)).OfElements limits unique items
      elements := by
  let part := items.validate (limits.inside 1)
  have hreport : (array header unique items).validate limits (.array elements) = _ :=
    validate_of_not_null rfl
  have helement : ∀ v ∈ elements, items.examineGiven limits 1 v =
      ⟨(part v).normalized, (part v).violations.map (limits.requote 1), (part v).defaulted⟩ :=
    fun v hm => examineGiven_eq_report h items (hv v hm)
  have hvalues : (elements.map fun v => (items.examineGiven limits 1 v).value) =
      elements.map fun v => (part v).normalized :=
    List.map_congr_left fun v hm => by rw [helement v hm]
  rw [hreport]
  refine ⟨?_, ?_, ?_⟩ <;> dsimp only
  · rw [violations_examine_array hl, Nat.zero_add, hvalues]
    congr 1
    refine List.flatMap_congr fun p hm => ?_
    rw [helement p.1 (List.fst_mem_of_mem_zipIdx hm), List.map_map]
    rfl
  · rw [defaulted_examine_array hl, Nat.zero_add]
    exact List.flatMap_congr fun p hm => by
      rw [helement p.1 (List.fst_mem_of_mem_zipIdx hm)]
  · rw [value_examine_array hl, Nat.zero_add, hvalues]

end Reports

/-- The report of an object is put together from the reports of its fields, and that of an
array without nulls from the reports of its elements, each validated with one level less. -/
theorem validate_by_parts {path : String} {definition : Json} (hd : definition.WellKeyed)
    {node : Schema} (hn : Schema.ofJson path definition = .ok node) {limits : Limits}
    (h : 1 ≤ limits.maxDepth) :
    (∀ header properties members, node = .object header properties →
      (node.validate limits (.object members)).OfFields limits properties members) ∧
    ∀ header unique items elements, node = .array header unique items →
      elements.length ≤ limits.maxArrayLength → (∀ v ∈ elements, v.isNull = false) →
      (node.validate limits (.array elements)).OfElements limits unique items elements := by
  have hw := wellFormed_of_ofJson hd hn
  refine ⟨?_, ?_⟩
  · rintro header properties members rfl
    exact ofFields_validate h hw members
  · rintro header unique items elements rfl hl hv
    exact ofElements_validate h header unique items hl hv

/-- An object with a field that reaches too deep, and an array with a repeated element. -/
theorem validate_by_parts_retry :
    let limits : Limits := { maxDepth := 1 }
    let definition := Json.object [("type", .string "array"), ("uniqueItems", .bool true),
      ("items", .object [("type", .string "string")])]
    let tags := Schema.array {} true (.leaf {} .string [])
    let members := [("extra", .array [.null]), ("retry", .object [("attempts", .bool true)])]
    let elements := [Json.string "a", .bool true, .string "a"]
    (∀ header properties, retrySchema = .object header properties →
      (retrySchema.validate limits (.object members)).OfFields limits properties members) ∧
    Schema.ofJson "tags" definition = .ok tags ∧
      (tags.validate limits (.array elements)).OfElements limits true (.leaf {} .string [])
        elements := by
  intro limits definition tags members elements
  have hdepth : 1 ≤ limits.maxDepth := by decide
  have htags : Schema.ofJson "tags" definition = .ok tags :=
    ofJson_of_array rfl (ofJson_of_leaf rfl)
  have hwell : definition.WellKeyed := by decide
  have hgiven : ∀ v ∈ elements, v.isNull = false := by decide
  refine ⟨fun header properties hnode => ?_, htags, ?_⟩
  · exact (validate_by_parts wellKeyed_retryDefinition (ofJson_retryDefinition "retry") hdepth).1
      header properties members hnode
  · exact (validate_by_parts hwell htags hdepth).2 {} true (.leaf {} .string []) elements rfl
      (by decide) hgiven

/-- A field that reaches too deep quotes one level less on its own than in the object. -/
theorem parts_quote_their_own_depth :
    let limits : Limits := { maxDepth := 1 }
    let members := [("name", Json.string "a"),
      ("retry", .object [("attempts", .number (.integer 5))])]
    retryDefinition.WellKeyed ∧ Schema.ofJson "retry" retryDefinition = .ok retrySchema ∧
      ∀ header properties, retrySchema = .object header properties →
        (retrySchema.validate limits (.object members)).violations ≠
          (properties.flatMap fun p => (fieldReport limits members p).violations.map fun x =>
            x.under (.key p.1)) ++
          (((undeclared properties members).filter fun m => limits.maxDepth - 1 < m.2.height).map
            fun m => limits.tooDeepAt [.key m.1]) := by
  intro limits members
  refine ⟨wellKeyed_retryDefinition, ofJson_retryDefinition "retry", ?_⟩
  intro header properties hnode
  cases hnode
  decide +kernel

end Schema

end PipelineConfig
