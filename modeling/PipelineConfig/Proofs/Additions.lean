import PipelineConfig.Proofs.Walk

/-!
# Normalization only adds

What a candidate gives is found again at its place in the normalized configuration:
a scalar as it is, an object as an object, an array as an array of as many elements.
Only a null that leaves a field out is not kept. The other way round, a scalar that
the candidate does not have was put there by a default, and the default is recorded.
So a validation neither drops, moves nor changes what it is given, whatever it finds.
-/

namespace PipelineConfig

namespace Json

/-- Whether the value can have nothing inside it. -/
def isScalar : Json → Bool
  | .null | .bool _ | .number _ | .string _ => true
  | .array _ | .object _ => false

/-- The second value is what the first is kept as, whatever lies inside. -/
inductive KeptAs : Json → Json → Prop where
  /-- A scalar is kept as it is. -/
  | scalar {v : Json} : v.isScalar = true → KeptAs v v
  /-- An object is kept as an object. -/
  | object {members others : List (String × Json)} : KeptAs (.object members) (.object others)
  /-- An array is kept as an array of as many elements. -/
  | array {elements others : List Json} : elements.length = others.length →
      KeptAs (.array elements) (.array others)

theorem KeptAs.refl (v : Json) : v.KeptAs v := by
  cases v with
  | null | bool | number | string => exact .scalar rfl
  | array => exact .array rfl
  | object => exact .object

end Json

namespace Schema

variable {limits : Limits} {depth : Nat} {node : Schema} {v : Json}

/-- The result has all that the value has, each at its place, except for the nulls that
leave a field out. -/
def Keeps (node : Schema) (v result : Json) : Prop :=
  ∀ path u, v.Holds path u → ¬ node.Clears path u → ∃ w, result.Holds path w ∧ u.KeptAs w

/-- A result that is the value itself keeps it. -/
theorem keeps_self : node.Keeps v v := fun _ u hu _ => ⟨u, hu, Json.KeptAs.refl u⟩

theorem keeps_examineGiven (h : node.Keeps v (node.examine limits depth v).value) :
    node.Keeps v (node.examineGiven limits depth v).value := by
  by_cases hd : depth ≤ limits.maxDepth
  · rwa [examineGiven_of_le hd]
  · rw [examineGiven_of_lt (Nat.not_le.mp hd)]
    exact keeps_self

theorem keeps_object {header : Header} {properties : List (String × Schema)}
    (hd : (properties.map Prod.fst).Nodup) {members : List (String × Json)}
    (hkeys : (members.map Prod.fst).Nodup)
    (h : ∀ name child, (name, child) ∈ properties → ∀ w, (name, w) ∈ members →
      child.Keeps w (child.examine limits (depth + 1) w).value) :
    (object header properties).Keeps (.object members)
      ((object header properties).examine limits depth (.object members)).value := by
  rw [value_examine_object]
  intro path u hu hclears
  cases hu with
  | self => exact ⟨_, .self _, .object⟩
  | @member _ name w _ rest hm hu =>
    by_cases hdeclared : name ∈ properties.map Prod.fst
    · obtain ⟨child, hp⟩ := Members.exists_of_mem_keys hdeclared
      cases hnull : w.isNull with
      | true =>
        obtain ⟨rfl, rfl⟩ := Json.holds_of_isNull hnull hu
        exact absurd (clears_of_mem hdeclared hnull) hclears
      | false =>
        have hlookup : properties.lookup name = some child := Members.lookup_of_mem hd hp
        obtain ⟨x, hx, hkept⟩ := keeps_examineGiven (h name child hp w hm) rest u hu
          fun hc => hclears (hc.field hlookup)
        refine ⟨x, .member (Members.mem_of_lookup ?_) hx, hkept⟩
        rw [lookup_replaceDeclared hd hp, fieldValue_of_mem hkeys hm hnull, examineField_some]
    · refine ⟨u, .member ?_ hu, Json.KeptAs.refl u⟩
      rw [replaceDeclared_eq hd, List.mem_append]
      exact .inr (mem_undeclared.mpr ⟨hm, hdeclared⟩)

theorem keeps_array {header : Header} {unique : Bool} {items : Schema} {elements : List Json}
    (hl : elements.length ≤ limits.maxArrayLength)
    (h : ∀ w ∈ elements, items.Keeps w (items.examine limits (depth + 1) w).value) :
    (array header unique items).Keeps (.array elements)
      ((array header unique items).examine limits depth (.array elements)).value := by
  rw [value_examine_array hl]
  intro path u hu hclears
  cases hu with
  | self => exact ⟨_, .self _, .array (List.length_map _).symm⟩
  | @element _ i w _ rest hi hu =>
    have hm := List.mem_of_getElem? hi
    obtain ⟨x, hx, hkept⟩ := keeps_examineGiven (h w hm) rest u hu
      fun hc => hclears hc.element
    refine ⟨x, .element ?_ hx, hkept⟩
    rw [List.getElem?_map, hi, Option.map_some]

/-- A look keeps what it is given. -/
theorem keeps_examine (hn : node.WellFormed) (hv : v.WellKeyed) (depth : Nat) :
    node.Keeps v (node.examine limits depth v).value := by
  induction node, v using inductionAlong generalizing depth with
  | other node v hk =>
    rw [examine_of_not_admits hk, Limits.value_mismatch]
    exact keeps_self
  | leaf header type allowed v hk =>
    rw [examine_leaf hk]
    exact keeps_self
  | openObject header members =>
    rw [examine_openObject, Limits.value_carry]
    exact keeps_self
  | object header properties members ih =>
    cases hn with
    | object _ hd hp =>
      cases hv with
      | object hkeys hvalues =>
        refine keeps_object hd hkeys fun name child hm w hw => ?_
        exact ih name child hm w (hp name child hm) (hvalues name w hw) (depth + 1)
  | array header unique items elements ih =>
    cases hn with
    | array _ hi =>
      cases hv with
      | array hvalues =>
        by_cases hl : elements.length ≤ limits.maxArrayLength
        · exact keeps_array hl fun w hw => ih w hi (hvalues w hw) (depth + 1)
        · rw [examine_array_of_lt (Nat.not_le.mp hl)]
          exact keeps_self

end Schema

/-- Every scalar of the checked value is one that was given at its place, or lies at or
below the place of a used default. -/
def Checked.AddsDefaults (c : Checked Json) (given : Option Json) : Prop :=
  ∀ path w, c.value.Holds path w → w.isScalar = true →
    (∃ v, given = some v ∧ v.Holds path w) ∨ ∃ place ∈ c.defaulted, place <+: path

namespace Schema

variable {limits : Limits} {depth : Nat} {node : Schema} {v : Json}

/-- A look that changes nothing adds nothing. -/
theorem addsDefaults_of_value {c : Checked Json} (h : c.value = v) : c.AddsDefaults (some v) := by
  intro path w hw _
  rw [h] at hw
  exact .inl ⟨v, rfl, hw⟩

theorem addsDefaults_examineGiven (h : (node.examine limits depth v).AddsDefaults (some v)) :
    (node.examineGiven limits depth v).AddsDefaults (some v) := by
  by_cases hd : depth ≤ limits.maxDepth
  · rwa [examineGiven_of_le hd]
  · rw [examineGiven_of_lt (Nat.not_le.mp hd)]
    exact addsDefaults_of_value rfl

/-- There is no scalar in an empty object or array. -/
theorem not_holds_of_substitute_empty (hs : node.substitute = .empty v) {path : Path} {w : Json}
    (hw : v.Holds path w) (hscalar : w.isScalar = true) : False := by
  obtain ⟨-, rfl⟩ := holds_of_substitute_empty hs hw
  obtain ⟨-, rfl | rfl⟩ := substitute_empty hs
  · cases hscalar
  · cases hscalar

/-- What a field left out becomes has no scalars but those of defaults. -/
theorem addsDefaults_examineField {field : Option Json}
    (h : ∀ v, (node.examine limits depth v).AddsDefaults (some v)) {x : Json}
    (hx : (node.examineField limits depth field).value = some x) :
    Checked.AddsDefaults ⟨x, (node.examineField limits depth field).violations,
      (node.examineField limits depth field).defaulted⟩ field := by
  cases field with
  | some v =>
    rw [examineField_some] at hx ⊢
    cases hx
    exact addsDefaults_examineGiven (h v)
  | none =>
    cases hs : node.substitute with
    | default v =>
      rw [examineField_default hs]
      exact fun path w _ _ => .inr ⟨.root, List.mem_cons_self, List.nil_prefix⟩
    | empty v =>
      rw [examineField_empty hs] at hx ⊢
      cases hx
      intro path w hw hscalar
      rcases h v path w hw hscalar with ⟨u, hu, hgiven⟩ | hdefault
      · cases hu
        exact (not_holds_of_substitute_empty hs hgiven hscalar).elim
      · exact .inr hdefault
    | missing =>
      rw [examineField_missing hs] at hx
      cases hx
    | nothing =>
      rw [examineField_nothing hs] at hx
      cases hx

/-- A used default below one step is a used default of the whole. -/
theorem exists_prefix_cons {used further : List Path} {step : Step} {path : Path}
    (h : ∃ place ∈ further, place <+: path) (hused : ∀ place ∈ further, step :: place ∈ used) :
    ∃ place ∈ used, place <+: step :: path := by
  obtain ⟨place, hplace, hprefix⟩ := h
  exact ⟨step :: place, hused place hplace, (List.prefix_cons_inj step).mpr hprefix⟩

/-- A look adds nothing but defaults, and records them. -/
theorem addsDefaults_examine (hn : node.WellFormed) (depth : Nat) (v : Json) :
    (node.examine limits depth v).AddsDefaults (some v) := by
  induction node, v using inductionAlong generalizing depth with
  | other node v hk =>
    apply addsDefaults_of_value
    rw [examine_of_not_admits hk, Limits.value_mismatch]
  | leaf header type allowed v hk =>
    apply addsDefaults_of_value
    rw [examine_leaf hk]
  | openObject header members =>
    apply addsDefaults_of_value
    rw [examine_openObject, Limits.value_carry]
  | object header properties members ih =>
    cases hn with
    | object _ hd hp =>
      intro path w hw hscalar
      rw [value_examine_object] at hw
      cases hw with
      | self => cases hscalar
      | @member _ name x _ rest hm hw =>
        rw [replaceDeclared_eq hd, List.mem_append] at hm
        rcases hm with hm | hm
        · obtain ⟨child, hp', hx⟩ := mem_of_mem_declaredMembers hm
          have hfield := addsDefaults_examineField
            (fun v => ih name child hp' v (hp name child hp') (depth + 1)) hx
          rcases hfield rest w hw hscalar with ⟨u, hu, hgiven⟩ | hdefault
          · exact .inl ⟨_, rfl, .member (mem_of_fieldValue hu) hgiven⟩
          · refine .inr (exists_prefix_cons hdefault fun place hplace => ?_)
            rw [defaulted_examine_object]
            exact List.mem_flatMap.mpr ⟨_, hp', List.mem_map_of_mem hplace⟩
        · exact .inl ⟨_, rfl, .member (mem_undeclared.mp hm).1 hw⟩
  | array header unique items elements ih =>
    cases hn with
    | array _ hi =>
      by_cases hl : elements.length ≤ limits.maxArrayLength
      · intro path w hw hscalar
        rw [value_examine_array hl] at hw
        cases hw with
        | self => cases hscalar
        | @element _ i x _ rest hx hw =>
          rw [List.getElem?_map, Option.map_eq_some_iff] at hx
          obtain ⟨u, hu, rfl⟩ := hx
          have helement := addsDefaults_examineGiven (ih u hi (depth + 1))
          rcases helement rest w hw hscalar with ⟨u', hu', hgiven⟩ | hdefault
          · cases hu'
            exact .inl ⟨_, rfl, .element hu hgiven⟩
          · refine .inr (exists_prefix_cons hdefault fun place hplace => ?_)
            have hm : (u, i) ∈ elements.zipIdx := List.mem_zipIdx_iff_getElem?.mpr hu
            rw [defaulted_examine_array hl]
            exact List.mem_flatMap.mpr ⟨_, hm, List.mem_map_of_mem hplace⟩
      · apply addsDefaults_of_value
        rw [examine_array_of_lt (Nat.not_le.mp hl)]

/-- Whatever the candidate has is kept at its place, unless it is a null that counts as
left out, and every other scalar of the normalized configuration comes from a default. -/
theorem normalized_only_adds {path : String} {definition : Json} (hd : definition.WellKeyed)
    (hn : Schema.ofJson path definition = .ok node) (limits : Limits) {candidate : Json}
    (hc : candidate.WellKeyed) :
    let report := node.validate limits candidate
    (∀ place v, candidate.Holds place v → ¬ node.Clears place v →
      ¬ (place = .root ∧ v.isNull = true) → ∃ w, report.normalized.Holds place w ∧ v.KeptAs w) ∧
    ∀ place w, report.normalized.Holds place w → w.isScalar = true →
      candidate.Holds place w ∨ ∃ used ∈ report.defaulted, used <+: place := by
  have hw := wellFormed_of_ofJson hd hn
  intro report
  cases hnull : candidate.isNull with
  | false =>
    have hreport : report = _ := validate_of_not_null hnull
    rw [hreport]
    refine ⟨fun place v hv hclears _ => keeps_examine hw hc 0 place v hv hclears, ?_⟩
    intro place w hholds hscalar
    rcases addsDefaults_examine hw 0 candidate place w hholds hscalar with ⟨v, hv, hgiven⟩ | hused
    · cases hv
      exact .inl hgiven
    · exact .inr hused
  | true =>
    cases Json.eq_null_of_isNull hnull
    refine ⟨fun place v hv _ hroot => ?_, fun place w hholds hscalar => ?_⟩
    · obtain ⟨rfl, rfl⟩ := Json.holds_of_isNull rfl hv
      exact absurd ⟨rfl, rfl⟩ hroot
    · have hreport : report = _ := validate_eq limits node .null
      rw [hreport] at hholds ⊢
      change (Option.getD (node.examineField limits 0 none).value Json.null).Holds place w at hholds
      cases hx : (node.examineField limits 0 none).value with
      | none =>
        rw [hx] at hholds
        exact .inl hholds
      | some x =>
        rw [hx] at hholds
        have hadds := addsDefaults_examineField (fun v => addsDefaults_examine hw 0 v) hx
        rcases hadds place w hholds hscalar with ⟨v, hv, -⟩ | hused
        · cases hv
        · exact .inr hused

/-- A null inside an undeclared array stays, one that leaves the name out goes, and the
pause that a default adds is recorded. -/
theorem normalized_only_adds_retry :
    let candidate := Json.object [("extra", .array [.null]), ("name", .null),
      ("retry", .object [("attempts", .string "many")])]
    let report := retrySchema.validate {} candidate
    report.defaulted = [[.key "retry", .key "pause"]] ∧
      (∃ w, report.normalized.Holds [.key "extra", .index 0] w ∧ Json.null.KeptAs w) ∧
      ∀ place w, report.normalized.Holds place w → w.isScalar = true →
        candidate.Holds place w ∨ ∃ used ∈ report.defaulted, used <+: place := by
  intro candidate report
  obtain ⟨hkept, hadded⟩ := normalized_only_adds wellKeyed_retryDefinition
    (ofJson_retryDefinition "retry") {} (show candidate.WellKeyed by decide)
  have hnull : candidate.Holds [.key "extra", .index 0] .null :=
    .member List.mem_cons_self (.element rfl (.self .null))
  have hundeclared : ¬ retrySchema.Clears [.key "extra", .index 0] .null := by
    rintro ⟨-, parent, name, header, properties, hpath, -⟩
    have hlast := congrArg List.getLast? hpath
    rw [List.getLast?_concat] at hlast
    cases hlast
  exact ⟨by decide +kernel, hkept _ _ hnull hundeclared (by simp [Path.root]), hadded⟩

end Schema

end PipelineConfig
