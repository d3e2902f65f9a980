import PipelineConfig.Proofs.Equality
import PipelineConfig.Proofs.Findings
import PipelineConfig.Proofs.Schemas

/-!
# Filling in defaults

Without limits a look is a function of the schema and the value alone: it fills in
what is left out. A look that meets no limit leaves the filled value. One that meets
limits leaves a part unfilled, but nothing else, so that filling what it leaves gives
the same as filling at once. Same values are the same after filling.
-/

namespace PipelineConfig

namespace Schema

/-- The value of a field, or what stands in for it if it is left out. -/
def resolve (node : Schema) (field : Option Json) : Option Json :=
  field.or node.substitute.value?

mutual

/-- Fills in what is left out, everywhere below a value. -/
def fill : Schema → Json → Json
  | leaf .., v | openObject _, v => v
  | object _ properties, v =>
    match v with
    | .object members =>
      .object (Members.collect (fillFields properties members) ++ undeclared properties members)
    | _ => v
  | array _ _ items, v =>
    match v with
    | .array elements => .array (elements.map fun element => fill items element)
    | _ => v

/-- The declared fields of an object, filled in. -/
def fillFields : List (String × Schema) → List (String × Json) → List (String × Json)
  | [], _ => []
  | (name, node) :: rest, members =>
    match (node.resolve (fieldValue members name)).map fun v => fill node v with
    | some v => (name, v) :: fillFields rest members
    | none => fillFields rest members

end

/-- Fills in a field, there or not. -/
def fillField (node : Schema) (field : Option Json) : Option Json :=
  (node.resolve field).map node.fill

variable {limits : Limits} {node : Schema}

theorem fill_object {header : Header} {properties : List (String × Schema)}
    {members : List (String × Json)} :
    (object header properties).fill (.object members) =
      .object (replaceDeclared (fun name node => node.fillField (fieldValue members name))
        properties members) := by
  have hfields : ∀ properties : List (String × Schema), fillFields properties members =
      declaredMembers (fun name node => node.fillField (fieldValue members name)) properties := by
    intro properties
    induction properties with
    | nil => rfl
    | cons head rest ih =>
      obtain ⟨name, node⟩ := head
      rw [declaredMembers_cons, fillFields, ih]
      rfl
  rw [fill, hfields]
  rfl

theorem fill_array {header : Header} {unique : Bool} {items : Schema} {elements : List Json} :
    (array header unique items).fill (.array elements) = .array (elements.map items.fill) := by
  rw [fill]

/-- There is nothing to fill in where the kinds differ. -/
theorem fill_of_not_admits {v : Json} (h : node.kind.admits v = false) : node.fill v = v := by
  cases node with
  | leaf | openObject => rw [fill]
  | object => cases v <;> first | rfl | cases h
  | array => cases v <;> first | rfl | cases h

/-- What stands in for a field left out is the default or empty. -/
theorem substitute_cases {v : Json} (hv : node.substitute.value? = some v) :
    node.header.default = some v ∨ v = .object [] ∨ v = .array [] := by
  cases hs : node.substitute with
  | default w =>
    rw [hs] at hv
    cases hv
    exact .inl (substitute_eq_default_iff.mp hs)
  | empty w =>
    rw [hs] at hv
    cases hv
    exact .inr (substitute_empty hs).2
  | missing | nothing =>
    rw [hs] at hv
    cases hv

/-- What stands in for a field left out is well keyed, if the default is. -/
theorem wellKeyed_substitute (hn : node.header.WellKeyed) {v : Json}
    (hv : node.substitute.value? = some v) : v.WellKeyed := by
  obtain hdefault | rfl | rfl := substitute_cases hv
  · exact hn v hdefault
  · decide
  · decide

/-- What stands in for a field left out is well keyed and not null. -/
theorem substitute_wellFormed (h : node.header.WellFormed) {v : Json}
    (hv : node.substitute.value? = some v) : v.WellKeyed ∧ v.isNull = false := by
  obtain hdefault | rfl | rfl := substitute_cases hv
  · exact h v hdefault
  · exact ⟨by decide, rfl⟩
  · exact ⟨by decide, rfl⟩

theorem isNull_fill {v : Json} : (node.fill v).isNull = v.isNull := by
  cases node with
  | leaf | openObject => rw [fill]
  | object | array => cases v <;> rfl

/-- What a field is filled with is not null. -/
theorem isNull_fillField (hn : node.header.WellFormed) {members : List (String × Json)}
    {name : String} {w : Json} (hw : node.fillField (fieldValue members name) = some w) :
    w.isNull = false := by
  obtain ⟨v, hv, rfl⟩ := Option.map_eq_some_iff.mp hw
  rw [isNull_fill]
  rcases Option.or_eq_some_iff.mp hv with hv | ⟨-, hv⟩
  · exact isNull_of_fieldValue hv
  · exact (substitute_wellFormed hn hv).2

/-- A filled object has its filled fields. -/
theorem fieldValue_filled {properties : List (String × Schema)} {members : List (String × Json)}
    (hd : (properties.map Prod.fst).Nodup) {name : String} (hm : (name, node) ∈ properties)
    (hn : node.header.WellFormed) :
    fieldValue (replaceDeclared (fun name node => node.fillField (fieldValue members name))
        properties members) name = node.fillField (fieldValue members name) :=
  fieldValue_replaceDeclared hd hm fun _ hw => isNull_fillField hn hw

/-- A field that meets no limit is left as the filled field. -/
theorem value_examineField_eq_fill {depth : Nat} {field : Option Json}
    (h : ∀ v, (node.examine limits depth v).WithinLimits →
      (node.examine limits depth v).value = node.fill v)
    (hfield : (node.examineField limits depth field).WithinLimits) :
    (node.examineField limits depth field).value = node.fillField field := by
  cases field with
  | some w =>
    rw [Checked.WithinLimits, findsOnly_examineField_some] at hfield
    obtain ⟨hle, hw⟩ := withinLimits_examineGiven.mp hfield
    rw [examineField_some, examineGiven_of_le hle, h w hw]
    rfl
  | none =>
    rw [Checked.WithinLimits, findsOnly_examineField_none] at hfield
    rw [value_examineField_none, fillField, resolve, Option.none_or]
    exact Option.map_congr fun w hw => h w (hfield.2 w hw)

/-- A look that meets no limit leaves the filled value. -/
theorem value_examine_eq_fill {depth : Nat} {v : Json}
    (h : (node.examine limits depth v).WithinLimits) :
    (node.examine limits depth v).value = node.fill v := by
  induction node, v using inductionAlong generalizing depth with
  | other node v hk => rw [examine_of_not_admits hk, Limits.value_mismatch, fill_of_not_admits hk]
  | leaf header type allowed v hk => rw [examine_leaf hk, fill]
  | openObject header members => rw [examine_openObject, Limits.value_carry, fill]
  | object header properties members ih =>
    have hfields := (findsOnly_examine_object.mp h).1
    rw [value_examine_object, fill_object]
    refine congrArg Json.object (replaceDeclared_congr members fun name node hm => ?_)
    exact value_examineField_eq_fill (fun w hw => ih name node hm w hw) (hfields name node hm)
  | array header unique items elements ih =>
    have hl := length_le_of_withinLimits h
    have helements := ((findsOnly_examine_array hl).mp h).1
    rw [value_examine_array hl, fill_array]
    refine congrArg Json.array (List.map_congr_left fun w hm => ?_)
    obtain ⟨hle, hw⟩ := withinLimits_examineGiven.mp (helements w hm)
    rw [examineGiven_of_le hle, ih w hw]

theorem fill_examineGiven {depth : Nat} {v : Json}
    (h : node.fill (node.examine limits depth v).value = node.fill v) :
    node.fill (node.examineGiven limits depth v).value = node.fill v := by
  by_cases hd : depth ≤ limits.maxDepth
  · rw [examineGiven_of_le hd, h]
  · rw [examineGiven_of_lt (Nat.not_le.mp hd)]

theorem fillField_examineField {depth : Nat} (field : Option Json)
    (h : ∀ v, node.fill (node.examine limits depth v).value = node.fill v) :
    node.fillField (node.examineField limits depth field).value = node.fillField field := by
  cases field with
  | some v =>
    rw [examineField_some]
    exact congrArg some (fill_examineGiven (h v))
  | none =>
    rw [value_examineField_none]
    cases hs : node.substitute.value? with
    | none => rfl
    | some w =>
      have hnone : node.fillField none = some (node.fill w) := by
        rw [fillField, resolve, hs]
        rfl
      rw [hnone]
      exact congrArg some (h w)

/-- Filling what a look leaves is filling the value, whatever the limits. -/
theorem fill_examine (hn : node.WellFormed) (depth : Nat) (v : Json) :
    node.fill (node.examine limits depth v).value = node.fill v := by
  induction node, v using inductionAlong generalizing depth with
  | other node v hk => rw [examine_of_not_admits hk, Limits.value_mismatch]
  | leaf header type allowed v hk => rw [examine_leaf hk]
  | openObject header members => rw [examine_openObject, Limits.value_carry]
  | object header properties members ih =>
    cases hn with
    | object _ hd hp =>
      let value := fun name (node : Schema) =>
        (node.examineField limits (depth + 1) (fieldValue members name)).value
      let replaced := replaceDeclared value properties members
      have hfill : ∀ name node, (name, node) ∈ properties →
          node.fillField (fieldValue replaced name) =
            node.fillField (fieldValue members name) := by
        intro name node hm
        rw [fieldValue_examined hd hm (hp name node hm).header]
        exact fillField_examineField _ fun w => ih name node hm w (hp name node hm) (depth + 1)
      -- The second filling starts from the first look's fields, and the rest is unchanged.
      rw [value_examine_object, fill_object, fill_object]
      refine congrArg Json.object ((replaceDeclared_congr replaced hfill).trans ?_)
      exact replaceDeclared_replaceDeclared hd
  | array header unique items elements ih =>
    cases hn with
    | array _ hi =>
      by_cases hl : elements.length ≤ limits.maxArrayLength
      · rw [value_examine_array hl, fill_array, fill_array, List.map_map]
        refine congrArg Json.array (List.map_congr_left fun w _ => ?_)
        exact fill_examineGiven (ih w hi (depth + 1))
      · rw [examine_array_of_lt (Nat.not_le.mp hl)]

end Schema

/-- Replacing declared fields by well keyed values leaves a well keyed object. -/
theorem wellKeyed_replaceDeclared {properties : List (String × Schema)}
    {members : List (String × Json)} {value : String → Schema → Option Json}
    (hm : (Json.object members).WellKeyed)
    (hv : ∀ name node, (name, node) ∈ properties → ∀ v, value name node = some v → v.WellKeyed) :
    (Json.object (replaceDeclared value properties members)).WellKeyed := by
  cases hm with
  | object hkeys hvalues =>
    refine .object (keys_replaceDeclared hkeys) fun name v hin => ?_
    rw [replaceDeclared, List.mem_append] at hin
    rcases hin with hin | hin
    · obtain ⟨node, hp, hs⟩ := mem_of_mem_declaredMembers (Members.mem_of_mem_collect hin)
      exact hv name node hp v hs
    · exact hvalues name v (mem_undeclared.mp hin).1

theorem Json.WellKeyed.fieldValue {members : List (String × Json)}
    (hm : (Json.object members).WellKeyed) {name : String} {v : Json}
    (h : fieldValue members name = some v) : v.WellKeyed := by
  cases hm with
  | object _ hvalues => exact hvalues name v (mem_of_fieldValue h)

namespace Schema

variable {limits : Limits} {node : Schema}

theorem wellKeyed_examineGiven {depth : Nat} {v : Json} (hv : v.WellKeyed)
    (h : (node.examine limits depth v).value.WellKeyed) :
    (node.examineGiven limits depth v).value.WellKeyed := by
  by_cases hd : depth ≤ limits.maxDepth
  · rwa [examineGiven_of_le hd]
  · rwa [examineGiven_of_lt (Nat.not_le.mp hd)]

theorem wellKeyed_examineField (hn : node.header.WellKeyed) {depth : Nat} {field : Option Json}
    (hfield : ∀ v, field = some v → v.WellKeyed)
    (h : ∀ v, v.WellKeyed → (node.examine limits depth v).value.WellKeyed) {w : Json}
    (hw : (node.examineField limits depth field).value = some w) : w.WellKeyed := by
  cases field with
  | some v =>
    rw [examineField_some] at hw
    cases hw
    exact wellKeyed_examineGiven (hfield v rfl) (h v (hfield v rfl))
  | none =>
    rw [value_examineField_none] at hw
    obtain ⟨v, hv, rfl⟩ := Option.map_eq_some_iff.mp hw
    exact h v (wellKeyed_substitute hn hv)

/-- A look leaves a well keyed value well keyed, if all defaults are. -/
theorem WellKeyed.examine (hn : node.WellKeyed) {depth : Nat} {v : Json} (hv : v.WellKeyed) :
    (node.examine limits depth v).value.WellKeyed := by
  induction node, v using inductionAlong generalizing depth with
  | other node v hk => rwa [examine_of_not_admits hk, Limits.value_mismatch]
  | leaf header type allowed v hk => rwa [examine_leaf hk]
  | openObject header members => rwa [examine_openObject, Limits.value_carry]
  | object header properties members ih =>
    rw [value_examine_object]
    refine wellKeyed_replaceDeclared hv fun name node hm w hw => ?_
    have hnode : node.WellKeyed := hn.field hm
    exact wellKeyed_examineField hnode.header (fun u hu => hv.fieldValue hu)
      (fun u hu => ih name node hm u hnode hu) hw
  | array header unique items elements ih =>
    by_cases hl : elements.length ≤ limits.maxArrayLength
    · rw [value_examine_array hl]
      cases hv with
      | array hvalues =>
        refine .array fun w hw => ?_
        obtain ⟨u, hu, rfl⟩ := List.mem_map.mp hw
        exact wellKeyed_examineGiven (hvalues u hu) (ih u hn.items (hvalues u hu))
    · rwa [examine_array_of_lt (Nat.not_le.mp hl)]

theorem wellKeyed_examine (hn : node.WellFormed) {depth : Nat} {v : Json} (hv : v.WellKeyed) :
    (node.examine limits depth v).value.WellKeyed :=
  hn.wellKeyed.examine hv

theorem wellKeyed_normalized (hn : node.WellFormed) {candidate : Json} (hc : candidate.WellKeyed) :
    (node.validate limits candidate).normalized.WellKeyed := by
  rw [validate_eq]
  cases hv : (node.examineField limits 0 candidate.asField).value with
  | none => exact .null
  | some w =>
    refine wellKeyed_examineField hn.wellKeyed.header (fun v hv => ?_) (fun v hv => ?_) hv
    · rwa [Json.eq_of_asField hv]
    · exact wellKeyed_examine hn hv

/-- Same fields are the same after filling, and what stands in for a field left out is
the same as itself. -/
theorem sameField_fillField {us vs : List (String × Json)} {name : String}
    (hnode : node.header.WellFormed) (hu : (Json.object us).WellKeyed)
    (hv : (Json.object vs).WellKeyed)
    (hs : Json.SameField (fieldValue us name) (fieldValue vs name))
    (h : ∀ u v, u.WellKeyed → v.WellKeyed → u.same v = true →
      (node.fill u).same (node.fill v) = true) :
    Json.SameField (node.fillField (fieldValue us name)) (node.fillField (fieldValue vs name)) := by
  cases hfu : fieldValue us name with
  | some u =>
    cases hfv : fieldValue vs name with
    | some v =>
      rw [hfu, hfv] at hs
      cases hs with
      | some hs => exact .some (h u v (hu.fieldValue hfu) (hv.fieldValue hfv) hs)
    | none =>
      rw [hfu, hfv] at hs
      cases hs
  | none =>
    cases hfv : fieldValue vs name with
    | some v =>
      rw [hfu, hfv] at hs
      cases hs
    | none =>
      rw [fillField, resolve, Option.none_or]
      cases hw : node.substitute.value? with
      | none => exact .none
      | some w =>
        have hwell := (substitute_wellFormed hnode hw).1
        exact .some (h w w hwell hwell hwell.same_refl)

theorem same_fill_object {header : Header} {properties : List (String × Schema)}
    {us vs : List (String × Json)} (hd : (properties.map Prod.fst).Nodup)
    (hu : (Json.object us).WellKeyed) (hv : (Json.object vs).WellKeyed)
    (hs : (Json.object us).same (.object vs) = true)
    (hp : ∀ name node, (name, node) ∈ properties → node.header.WellFormed ∧
      ∀ u v, u.WellKeyed → v.WellKeyed → u.same v = true →
        (node.fill u).same (node.fill v) = true) :
    ((object header properties).fill (.object us)).same
      ((object header properties).fill (.object vs)) = true := by
  have hukeys : (us.map Prod.fst).Nodup := by
    cases hu with
    | object hkeys => exact hkeys
  have hvkeys : (vs.map Prod.fst).Nodup := by
    cases hv with
    | object hkeys => exact hkeys
  have hfields := (Json.same_object_iff hukeys hvkeys).mp hs
  rw [fill_object, fill_object, Json.same_object_iff (keys_replaceDeclared hukeys)
    (keys_replaceDeclared hvkeys)]
  intro key
  by_cases hdeclared : key ∈ properties.map Prod.fst
  · obtain ⟨node, hm⟩ := Members.exists_of_mem_keys hdeclared
    obtain ⟨hnode, hsame⟩ := hp key node hm
    rw [lookup_replaceDeclared hd hm, lookup_replaceDeclared hd hm]
    exact sameField_fillField hnode hu hv (Json.sameField_fieldValue (hfields key)) hsame
  · rw [lookup_replaceDeclared_undeclared hd hdeclared,
      lookup_replaceDeclared_undeclared hd hdeclared]
    exact hfields key

/-- Same values are the same after filling. -/
theorem same_fill (hn : node.WellFormed) {u v : Json} (hu : u.WellKeyed) (hv : v.WellKeyed)
    (hs : u.same v = true) : (node.fill u).same (node.fill v) = true := by
  induction node, u using inductionAlong generalizing v with
  | other node u hk =>
    -- Sameness respects objects and arrays, so the other value is of another kind as well.
    cases node with
    | leaf | openObject =>
      rw [fill, fill]
      exact hs
    | object header properties =>
      have hk' : (object header properties).kind.admits v = false :=
        (Json.admits_object_eq_of_same hs).symm.trans hk
      rwa [fill_of_not_admits hk, fill_of_not_admits hk']
    | array header unique items =>
      have hk' : (array header unique items).kind.admits v = false :=
        (Json.admits_array_eq_of_same hs).symm.trans hk
      rwa [fill_of_not_admits hk, fill_of_not_admits hk']
  | leaf header type allowed u hk =>
    rw [fill, fill]
    exact hs
  | openObject header us =>
    rw [fill, fill]
    exact hs
  | object header properties us ih =>
    obtain ⟨vs, rfl⟩ := admits_object_iff.mp ((Json.admits_object_eq_of_same hs).symm.trans rfl)
    cases hn with
    | object _ hd hp =>
      refine same_fill_object hd hu hv hs fun name node hm => ⟨(hp name node hm).header, ?_⟩
      intro u v hu hv hs
      exact ih name node hm u (hp name node hm) hu hv hs
  | array header unique items us ih =>
    obtain ⟨vs, rfl⟩ := admits_array_iff.mp ((Json.admits_array_eq_of_same hs).symm.trans rfl)
    cases hn with
    | array _ hi =>
      cases hu with
      | array hus =>
        cases hv with
        | array hvs =>
          rw [Json.same, Json.sameElements_iff] at hs
          rw [fill_array, fill_array, Json.same, Json.sameElements_iff, List.forall₂_map_left_iff,
            List.forall₂_map_right_iff]
          have hmem := List.forall₂_iff_get.mp hs
          refine List.forall₂_iff_get.mpr ⟨hmem.1, fun i hu hv => ?_⟩
          exact ih (us.get ⟨i, hu⟩) hi (hus _ (List.get_mem _ _)) (hvs _ (List.get_mem _ _))
            (hmem.2 i hu hv)

end Schema

end PipelineConfig
