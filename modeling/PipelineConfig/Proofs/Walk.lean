import PipelineConfig.Proofs.Schemas

/-!
# What one look at a value does

Every kind of look has one equation for its value, one for its violations and
one for the places of used defaults. A field of an object and an element of an
array are looked at in the same two ways: as a value that is given, and as a
field that may be left out. The equations of objects and arrays speak of these
two alone, so that nothing else needs to open the walk.
-/

namespace PipelineConfig

namespace Limits

variable (limits : Limits) (depth : Nat) (v : Json)

theorem carry_eq : limits.carry depth v =
    if limits.maxDepth < depth + v.height then ⟨v, [limits.tooDeep], []⟩ else ⟨v, [], []⟩ := rfl

@[simp] theorem value_carry : (limits.carry depth v).value = v := by
  rw [carry_eq]
  split <;> rfl

@[simp] theorem defaulted_carry : (limits.carry depth v).defaulted = [] := by
  rw [carry_eq]
  split <;> rfl

/-- A value carried over is blamed only if something in it lies too deep. -/
theorem violations_carry :
    (limits.carry depth v).violations =
      if limits.maxDepth < depth + v.height then [limits.tooDeep] else [] := by
  rw [carry_eq]
  split <;> rfl

@[simp] theorem value_mismatch (kind : Kind) : (limits.mismatch depth kind v).value = v :=
  limits.value_carry depth v

@[simp] theorem defaulted_mismatch (kind : Kind) :
    (limits.mismatch depth kind v).defaulted = [] :=
  limits.defaulted_carry depth v

theorem violations_mismatch (kind : Kind) :
    (limits.mismatch depth kind v).violations =
      .typeMismatch .root kind.name v.typeName :: (limits.carry depth v).violations := rfl

@[simp] theorem value_carryUndeclared (members : List (String × Json)) :
    (limits.carryUndeclared depth members).value = members := by
  induction members with
  | nil => rfl
  | cons head rest ih =>
    obtain ⟨name, v⟩ := head
    simp [carryUndeclared, ih]

@[simp] theorem defaulted_carryUndeclared (members : List (String × Json)) :
    (limits.carryUndeclared depth members).defaulted = [] := by
  induction members with
  | nil => rfl
  | cons head rest ih =>
    obtain ⟨name, v⟩ := head
    simp [carryUndeclared, ih]

theorem violations_carryUndeclared (members : List (String × Json)) :
    (limits.carryUndeclared depth members).violations =
      members.flatMap fun m =>
        (limits.carry depth m.2).violations.map (Violation.under (.key m.1)) := by
  induction members with
  | nil => rfl
  | cons head rest ih =>
    obtain ⟨name, v⟩ := head
    simp [carryUndeclared, ih]

end Limits

section Elements

variable (look : Json → Checked Json)

theorem value_eachElement (start : Nat) (elements : List Json) :
    (eachElement look start elements).value = elements.map fun v => (look v).value := by
  induction elements generalizing start with
  | nil => rfl
  | cons v rest ih => simp [eachElement, ih]

theorem violations_eachElement (start : Nat) (elements : List Json) :
    (eachElement look start elements).violations =
      (elements.zipIdx start).flatMap fun p =>
        (look p.1).violations.map (Violation.under (.index p.2)) := by
  induction elements generalizing start with
  | nil => rfl
  | cons v rest ih => simp [eachElement, ih]

theorem defaulted_eachElement (start : Nat) (elements : List Json) :
    (eachElement look start elements).defaulted =
      (elements.zipIdx start).flatMap fun p =>
        (look p.1).defaulted.map (Step.index p.2 :: ·) := by
  induction elements generalizing start with
  | nil => rfl
  | cons v rest ih => simp [eachElement, ih]

end Elements

section Steps

theorem nodup_keySteps {properties : List (String × Schema)}
    (hd : (properties.map Prod.fst).Nodup) :
    (properties.map fun p => Step.key p.1).Nodup := by
  have hkeys := hd.map (f := Step.key) fun a b h => Step.key.inj h
  rwa [List.map_map] at hkeys

theorem nodup_indices (elements : List Json) : (elements.zipIdx.map fun p => p.2).Nodup := by
  rw [List.zipIdx_map_snd]
  exact List.nodup_range'

theorem nodup_indexSteps (elements : List Json) :
    (elements.zipIdx.map fun p => Step.index p.2).Nodup := by
  have hsteps := (nodup_indices elements).map (f := Step.index) fun a b h => Step.index.inj h
  rwa [List.map_map] at hsteps

/-- What is found below distinct steps, once below each, is found once. -/
theorem nodup_flatMap_under {α β γ : Type} {l : List α} {step : α → Step} {found : α → List β}
    {under : Step → β → γ} (hsteps : (l.map step).Nodup)
    (hunder : ∀ s t a b, under s a = under t b → s = t ∧ a = b)
    (hfound : ∀ a ∈ l, (found a).Nodup) :
    (l.flatMap fun a => (found a).map (under (step a))).Nodup := by
  rw [List.nodup_flatMap]
  refine ⟨?_, ?_⟩
  · intro a ha
    exact (hfound a ha).map fun s t hst => (hunder _ _ s t hst).2
  · refine (List.pairwise_map.mp hsteps).imp fun hne => ?_
    intro x hs ht
    obtain ⟨s, -, rfl⟩ := List.mem_map.mp hs
    obtain ⟨t, -, he⟩ := List.mem_map.mp ht
    exact hne (hunder _ _ t s he).1.symm

end Steps

/-- The value that stands in for a field left out, if there is one. -/
def Substitute.value? : Substitute → Option Json
  | default v | empty v => some v
  | missing | nothing => none

/-- The field that a candidate stands for. A null leaves it out. -/
def Json.asField (v : Json) : Option Json := if v.isNull then none else some v

theorem Json.asField_of_not_null {v : Json} (h : v.isNull = false) : v.asField = some v := by
  rw [asField, h]
  rfl

theorem Json.eq_of_asField {v w : Json} (h : v.asField = some w) : w = v := by
  rw [asField] at h
  split at h
  · cases h
  · exact (Option.some.inj h).symm

/-- A candidate leaves out what its field leaves out, if it has one. -/
theorem Json.leavesOut_iff_asField {v : Json} {path : Path} :
    v.LeavesOut path ↔ ∀ w, v.asField = some w → w.LeavesOut path := by
  constructor
  · intro h w hw
    rwa [Json.eq_of_asField hw]
  · intro h
    cases hn : v.isNull with
    | true => exact Json.leavesOut_of_isNull hn path
    | false => exact h v (Json.asField_of_not_null hn)

theorem isNull_of_asField {v w : Json} (h : v.asField = some w) : w.isNull = false := by
  cases hn : v.isNull with
  | true =>
    rw [Json.asField, hn] at h
    cases h
  | false =>
    rw [Json.asField_of_not_null hn] at h
    cases h
    exact hn

namespace Schema

/-- Looks at a value that is given, at the given depth. -/
def examineGiven (limits : Limits) (depth : Nat) (node : Schema) (v : Json) : Checked Json :=
  limits.present depth (fun w => node.examine limits depth w) v

/-- Looks at a field at the given depth, there or not. -/
def examineField (limits : Limits) (depth : Nat) (node : Schema) (field : Option Json) :
    Checked (Option Json) :=
  limits.place depth node (fun w => node.examine limits depth w) field

variable {limits : Limits} {depth : Nat} {node : Schema} {v : Json}

theorem examineGiven_eq : node.examineGiven limits depth v =
    if limits.maxDepth < depth then ⟨v, [limits.tooDeep], []⟩
    else node.examine limits depth v := rfl

theorem examineGiven_of_lt (h : limits.maxDepth < depth) :
    node.examineGiven limits depth v = ⟨v, [limits.tooDeep], []⟩ := by
  rw [examineGiven_eq, if_pos h]

theorem examineGiven_of_le (h : depth ≤ limits.maxDepth) :
    node.examineGiven limits depth v = node.examine limits depth v := by
  rw [examineGiven_eq, if_neg (Nat.not_lt.mpr h)]

theorem examineField_some_eq : node.examineField limits depth (some v) =
    some <$> node.examineGiven limits depth v := rfl

theorem examineField_none_eq : node.examineField limits depth none =
    match node.substitute with
    | .default v => (do
      .reportDefault
      some <$> node.examine limits depth v)
    | .missing => ⟨none, [.missingField .root], []⟩
    | .empty v => some <$> node.examine limits depth v
    | .nothing => ⟨none, [], []⟩ := rfl

theorem examineField_some :
    node.examineField limits depth (some v) =
      ⟨some (node.examineGiven limits depth v).value,
        (node.examineGiven limits depth v).violations,
        (node.examineGiven limits depth v).defaulted⟩ := by
  rw [examineField_some_eq, Checked.map_eq]

theorem examineField_default (h : node.substitute = .default v) :
    node.examineField limits depth none =
      ⟨some (node.examine limits depth v).value, (node.examine limits depth v).violations,
        .root :: (node.examine limits depth v).defaulted⟩ := by
  rw [examineField_none_eq, h]
  simp only [Checked.map_eq]
  rfl

theorem examineField_missing (h : node.substitute = .missing) :
    node.examineField limits depth none = ⟨none, [.missingField .root], []⟩ := by
  rw [examineField_none_eq, h]

theorem examineField_empty (h : node.substitute = .empty v) :
    node.examineField limits depth none =
      ⟨some (node.examine limits depth v).value, (node.examine limits depth v).violations,
        (node.examine limits depth v).defaulted⟩ := by
  rw [examineField_none_eq, h]
  exact Checked.map_eq ..

theorem examineField_nothing (h : node.substitute = .nothing) :
    node.examineField limits depth none = ⟨none, [], []⟩ := by
  rw [examineField_none_eq, h]

/-- What a field left out becomes is looked at, and if there is nothing it stays out. -/
theorem value_examineField_none :
    (node.examineField limits depth none).value =
      node.substitute.value?.map fun v => (node.examine limits depth v).value := by
  cases hs : node.substitute with
  | default v => rw [examineField_default hs]; rfl
  | missing => rw [examineField_missing hs]; rfl
  | empty v => rw [examineField_empty hs]; rfl
  | nothing => rw [examineField_nothing hs]; rfl

/-- A field left out takes exactly the default that its node declares. -/
theorem substitute_eq_default_iff :
    node.substitute = .default v ↔ node.header.default = some v := by
  unfold substitute
  split <;> simp_all

/-- A field left out is missing exactly if it is required and has no default. -/
theorem substitute_eq_missing_iff :
    node.substitute = .missing ↔ node.header.default = none ∧ node.header.required = true := by
  unfold substitute
  split <;> simp_all

theorem required_of_substitute_nothing (h : node.substitute = .nothing) :
    node.header.required = false := by
  unfold substitute at h
  split at h <;> simp_all

/-- What counts as empty is an empty value of the node's kind. -/
theorem substitute_empty (h : node.substitute = .empty v) :
    node.kind.admits v = true ∧ (v = .object [] ∨ v = .array []) := by
  unfold substitute at h
  split at h <;> cases h
  · exact ⟨rfl, .inl rfl⟩
  · exact ⟨rfl, .inl rfl⟩
  · exact ⟨rfl, .inr rfl⟩

/-- Nothing lies inside what counts as empty. -/
theorem holds_of_substitute_empty (h : node.substitute = .empty v) {path : Path} {w : Json}
    (hw : v.Holds path w) : path = [] ∧ w = v := by
  obtain ⟨-, rfl | rfl⟩ := substitute_empty h
  · cases hw with
    | self => exact ⟨rfl, rfl⟩
    | member hm => cases hm
  · cases hw with
    | self => exact ⟨rfl, rfl⟩
    | element hi => cases hi

/-! ### The walk, opened once -/

theorem examine_leaf_eq {header : Header} {type : Leaf} {allowed : List Json} :
    (leaf header type allowed).examine limits depth v = type.examine allowed limits depth v := rfl

theorem examine_object_eq {header : Header} {properties : List (String × Schema)}
    {members : List (String × Json)} :
    (object header properties).examine limits depth (.object members) = (do
      let declared ← examineFields limits properties depth members
      let others ← limits.carryUndeclared (depth + 1) (undeclared properties members)
      pure (.object (Members.collect declared ++ others))) := rfl

theorem examine_array_eq {header : Header} {unique : Bool} {items : Schema}
    {elements : List Json} :
    (array header unique items).examine limits depth (.array elements) =
      if limits.maxArrayLength < elements.length then (do
        .report [limits.tooLong elements.length]
        pure (.array elements))
      else (do
        let found ← eachElement (items.examineGiven limits (depth + 1)) 0 elements
        if unique then .report (duplicates found)
        pure (.array found)) := rfl

theorem examineFields_cons_eq {name : String} {properties : List (String × Schema)}
    {members : List (String × Json)} :
    examineFields limits ((name, node) :: properties) depth members = (do
      let found ← (node.examineField limits (depth + 1) (fieldValue members name)).under (.key name)
      let others ← examineFields limits properties depth members
      match found with
      | some v => pure ((name, v) :: others)
      | none => pure others) := rfl

/-- A value of another kind is carried over, whatever the node. -/
theorem examine_of_not_admits (h : node.kind.admits v = false) :
    node.examine limits depth v = limits.mismatch depth node.kind v := by
  cases node with
  | leaf header type allowed =>
    have hn : ¬ type.kind.admits v = true := Bool.eq_false_iff.mp h
    rw [examine_leaf_eq, Leaf.examine, if_neg hn]
    rfl
  | openObject header | object header properties =>
    cases v with
    | object members => cases h
    | _ => rfl
  | array header unique items =>
    cases v with
    | array elements => cases h
    | _ => rfl

theorem examine_leaf {header : Header} {type : Leaf} {allowed : List Json}
    (h : type.kind.admits v = true) :
    (leaf header type allowed).examine limits depth v =
      ⟨v, notAllowed allowed v ++ outOfBounds type.bounds v, []⟩ := by
  rw [examine_leaf_eq, Leaf.examine, if_pos h]
  change (⟨v, notAllowed allowed v ++ outOfBounds type.bounds v ++ [], []⟩ : Checked Json) = _
  rw [List.append_nil]

theorem examine_openObject {header : Header} {members : List (String × Json)} :
    (openObject header).examine limits depth (.object members) =
      limits.carry depth (.object members) := rfl

section Fields

variable (limits : Limits) (properties : List (String × Schema)) (depth : Nat)
  (members : List (String × Json))

theorem value_examineFields :
    (examineFields limits properties depth members).value =
      declaredMembers (fun name node =>
        (node.examineField limits (depth + 1) (fieldValue members name)).value) properties := by
  induction properties with
  | nil => rfl
  | cons head rest ih =>
    obtain ⟨name, node⟩ := head
    rw [examineFields_cons_eq, declaredMembers_cons, ← ih]
    simp only [Checked.value_bind, Checked.value_under]
    split <;> simp_all

theorem violations_examineFields :
    (examineFields limits properties depth members).violations =
      properties.flatMap fun p =>
        (p.2.examineField limits (depth + 1) (fieldValue members p.1)).violations.map
          (Violation.under (.key p.1)) := by
  induction properties with
  | nil => rfl
  | cons head rest ih =>
    obtain ⟨name, node⟩ := head
    rw [examineFields_cons_eq, List.flatMap_cons, ← ih]
    simp only [Checked.violations_bind, Checked.violations_under]
    split <;> simp

theorem defaulted_examineFields :
    (examineFields limits properties depth members).defaulted =
      properties.flatMap fun p =>
        (p.2.examineField limits (depth + 1) (fieldValue members p.1)).defaulted.map
          (Step.key p.1 :: ·) := by
  induction properties with
  | nil => rfl
  | cons head rest ih =>
    obtain ⟨name, node⟩ := head
    rw [examineFields_cons_eq, List.flatMap_cons, ← ih]
    simp only [Checked.defaulted_bind, Checked.defaulted_under]
    split <;> simp

variable (header : Header)

/-- The declared fields are replaced by what they become; the rest stays. -/
theorem value_examine_object :
    ((object header properties).examine limits depth (.object members)).value =
      .object (replaceDeclared (fun name node =>
        (node.examineField limits (depth + 1) (fieldValue members name)).value)
        properties members) := by
  rw [examine_object_eq, replaceDeclared, ← value_examineFields]
  simp

/-- First the declared fields are blamed, in the order of the declarations, then
the undeclared members. -/
theorem violations_examine_object :
    ((object header properties).examine limits depth (.object members)).violations =
      (properties.flatMap fun p =>
        (p.2.examineField limits (depth + 1) (fieldValue members p.1)).violations.map
          (Violation.under (.key p.1))) ++
      ((undeclared properties members).flatMap fun m =>
        (limits.carry (depth + 1) m.2).violations.map (Violation.under (.key m.1))) := by
  rw [examine_object_eq, ← violations_examineFields, ← Limits.violations_carryUndeclared]
  simp

theorem defaulted_examine_object :
    ((object header properties).examine limits depth (.object members)).defaulted =
      properties.flatMap fun p =>
        (p.2.examineField limits (depth + 1) (fieldValue members p.1)).defaulted.map
          (Step.key p.1 :: ·) := by
  rw [examine_object_eq, ← defaulted_examineFields]
  simp

end Fields

section Elements

variable {header : Header} {unique : Bool} {items : Schema} {elements : List Json}

/-- An array that is too long is carried over unlooked. -/
theorem examine_array_of_lt (h : limits.maxArrayLength < elements.length) :
    (array header unique items).examine limits depth (.array elements) =
      ⟨.array elements, [limits.tooLong elements.length], []⟩ := by
  rw [examine_array_eq, if_pos h]
  rfl

variable (h : elements.length ≤ limits.maxArrayLength)

include h

theorem examine_array_of_le :
    (array header unique items).examine limits depth (.array elements) = (do
      let found ← eachElement (items.examineGiven limits (depth + 1)) 0 elements
      if unique then .report (duplicates found)
      pure (.array found)) := by
  rw [examine_array_eq, if_neg (Nat.not_lt.mpr h)]

theorem value_examine_array :
    ((array header unique items).examine limits depth (.array elements)).value =
      .array (elements.map fun v => (items.examineGiven limits (depth + 1) v).value) := by
  rw [examine_array_of_le h, ← value_eachElement _ 0]
  cases unique <;> rfl

/-- First the elements are blamed, in their order, then those that repeat an
earlier one. -/
theorem violations_examine_array :
    ((array header unique items).examine limits depth (.array elements)).violations =
      (elements.zipIdx.flatMap fun p =>
        (items.examineGiven limits (depth + 1) p.1).violations.map
          (Violation.under (.index p.2))) ++
      if unique then
        duplicates (elements.map fun v => (items.examineGiven limits (depth + 1) v).value)
      else [] := by
  rw [examine_array_of_le h, ← value_eachElement _ 0, ← violations_eachElement]
  cases unique <;> simp [Checked.report]

theorem defaulted_examine_array :
    ((array header unique items).examine limits depth (.array elements)).defaulted =
      elements.zipIdx.flatMap fun p =>
        (items.examineGiven limits (depth + 1) p.1).defaulted.map (Step.index p.2 :: ·) := by
  rw [examine_array_of_le h, ← defaulted_eachElement]
  cases unique <;> simp [Checked.report]

end Elements

/-- What a value becomes is null only if the value is. -/
theorem isNull_examine : (node.examine limits depth v).value.isNull = v.isNull := by
  cases hk : node.kind.admits v with
  | false => rw [examine_of_not_admits hk, Limits.value_mismatch]
  | true =>
    cases node with
    | leaf header type allowed => rw [examine_leaf hk]
    | openObject header =>
      obtain ⟨members, rfl⟩ := admits_object_iff.mp hk
      rw [examine_openObject, Limits.value_carry]
    | object header properties =>
      obtain ⟨members, rfl⟩ := admits_object_iff.mp hk
      rw [value_examine_object]
      rfl
    | array header unique items =>
      obtain ⟨elements, rfl⟩ := admits_array_iff.mp hk
      by_cases hl : elements.length ≤ limits.maxArrayLength
      · rw [value_examine_array hl]
        rfl
      · rw [examine_array_of_lt (Nat.not_le.mp hl)]

theorem isNull_examineGiven : (node.examineGiven limits depth v).value.isNull = v.isNull := by
  by_cases hd : depth ≤ limits.maxDepth
  · rw [examineGiven_of_le hd, isNull_examine]
  · rw [examineGiven_of_lt (Nat.not_le.mp hd)]

/-- A field never becomes null, unless a default is. -/
theorem isNull_examineField {field : Option Json} {w : Json}
    (hdefault : ∀ v, node.header.default = some v → v.isNull = false)
    (hfield : ∀ v, field = some v → v.isNull = false)
    (h : (node.examineField limits depth field).value = some w) : w.isNull = false := by
  cases field with
  | some v =>
    rw [examineField_some] at h
    cases h
    rw [isNull_examineGiven, hfield v rfl]
  | none =>
    cases hs : node.substitute with
    | default v =>
      rw [examineField_default hs] at h
      cases h
      rw [isNull_examine, hdefault v (substitute_eq_default_iff.mp hs)]
    | missing =>
      rw [examineField_missing hs] at h
      cases h
    | empty v =>
      rw [examineField_empty hs] at h
      cases h
      obtain ⟨-, rfl | rfl⟩ := substitute_empty hs <;> rw [isNull_examine] <;> rfl
    | nothing =>
      rw [examineField_nothing hs] at h
      cases h

theorem isNull_of_fieldValue {members : List (String × Json)} {name : String}
    (h : fieldValue members name = some v) : v.isNull = false := by
  simpa using (Option.filter_eq_some_iff.mp h).2

/-- What a declared field becomes is read back from the object as it is left. -/
theorem fieldValue_examined {properties : List (String × Schema)} {members : List (String × Json)}
    (hd : (properties.map Prod.fst).Nodup) {name : String} (hm : (name, node) ∈ properties)
    (hnode : node.header.WellFormed) :
    fieldValue (replaceDeclared (fun name node =>
        (node.examineField limits depth (fieldValue members name)).value) properties members) name =
      (node.examineField limits depth (fieldValue members name)).value := by
  apply fieldValue_replaceDeclared hd hm
  intro w hw
  exact isNull_examineField (fun v hv => (hnode v hv).2) (fun v hv => isNull_of_fieldValue hv) hw

/-- A validation looks at the candidate as at a field that a null leaves out. -/
theorem validate_eq (limits : Limits) (node : Schema) (candidate : Json) :
    node.validate limits candidate =
      ⟨(node.examineField limits 0 candidate.asField).value.getD .null,
        (node.examineField limits 0 candidate.asField).violations,
        (node.examineField limits 0 candidate.asField).defaulted⟩ :=
  rfl

/-- A validated configuration stands for the field that was left. -/
theorem asField_normalized (hn : node.header.WellFormed) (candidate : Json) :
    (node.validate limits candidate).normalized.asField =
      (node.examineField limits 0 candidate.asField).value := by
  rw [validate_eq]
  change Json.asField (Option.getD _ Json.null) = _
  cases hv : (node.examineField limits 0 candidate.asField).value with
  | none => rfl
  | some w =>
    have hnull : w.isNull = false :=
      isNull_examineField (fun v hm => (hn v hm).2) (fun v hc => isNull_of_asField hc) hv
    exact Json.asField_of_not_null hnull

/-- A candidate other than null is looked at as it is. -/
theorem validate_of_not_null {candidate : Json} (hc : candidate.isNull = false) :
    node.validate limits candidate =
      ⟨(node.examine limits 0 candidate).value, (node.examine limits 0 candidate).violations,
        (node.examine limits 0 candidate).defaulted⟩ := by
  rw [validate_eq, Json.asField_of_not_null hc, examineField_some,
    examineGiven_of_le (Nat.zero_le _), Option.getD_some]

end Schema

end PipelineConfig
