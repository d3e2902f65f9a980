import PipelineConfig.Proofs.SoundDefaults

/-!
# The record of used defaults

A default is used at a field that is left out, in the candidate or in what already
stands in for a field further out. If no limit is met, then the report records exactly
the paths of these fields, each once, and every recorded path leads in the normalized
configuration to the filled default. A declared field with a default that is left out
is either recorded itself or lies inside a default that is.
-/

namespace PipelineConfig

namespace Schema

/-- From a field, there or not, the path leads to a field that is left out and takes the
value as the default of its node. -/
inductive TakesDefault : Schema → Option Json → Path → Schema → Json → Prop where
  /-- It is the field itself. -/
  | here {node : Schema} {v : Json} : node.header.default = some v →
      TakesDefault node none [] node v
  /-- It lies in a declared field of what the field has, or of what stands in for it. -/
  | field {header : Header} {properties : List (String × Schema)} {field : Option Json}
      {members : List (String × Json)} {name : String} {child inner : Schema} {path : Path}
      {v : Json} : (object header properties).resolve field = some (.object members) →
      (name, child) ∈ properties → TakesDefault child (fieldValue members name) path inner v →
      TakesDefault (.object header properties) field (.key name :: path) inner v
  /-- It lies in an element of what the field has, or of what stands in for it. -/
  | element {header : Header} {unique : Bool} {items inner : Schema} {field : Option Json}
      {elements : List Json} {i : Nat} {w v : Json} {path : Path} :
      (array header unique items).resolve field = some (.array elements) →
      elements[i]? = some w → TakesDefault items (some w) path inner v →
      TakesDefault (.array header unique items) field (.index i :: path) inner v

variable {limits : Limits} {node inner : Schema} {depth : Nat} {field : Option Json} {path : Path}
  {v w : Json}

theorem resolve_none : node.resolve none = node.substitute.value? := Option.none_or

/-- A field left out takes its own default, or further in one of those in what stands in
for it. -/
theorem takesDefault_none_iff : node.TakesDefault none path inner v ↔
    (path = [] ∧ inner = node ∧ node.header.default = some v) ∨
      ∃ w, node.substitute.value? = some w ∧ node.TakesDefault (some w) path inner v := by
  constructor
  · intro h
    cases h with
    | here hv => exact .inl ⟨rfl, rfl, hv⟩
    | field hr hm h => exact .inr ⟨_, resolve_none.symm.trans hr, .field rfl hm h⟩
    | element hr hi h => exact .inr ⟨_, resolve_none.symm.trans hr, .element rfl hi h⟩
  · rintro (⟨rfl, rfl, hv⟩ | ⟨w, hw, h⟩)
    · exact .here hv
    · have hr : node.resolve none = some w := resolve_none.trans hw
      cases h with
      | field hr' hm h =>
        cases hr'
        exact .field hr hm h
      | element hr' hi h =>
        cases hr'
        exact .element hr hi h

/-! ### What is recorded -/

/-- Every path is recorded once, whatever the limits. -/
theorem nodup_defaulted_field (hn : node.WellFormed)
    (h : ∀ v, (node.examine limits depth v).defaulted.Nodup) (field : Option Json) :
    (node.examineField limits depth field).defaulted.Nodup := by
  cases field with
  | some v =>
    rw [examineField_some]
    by_cases hd : depth ≤ limits.maxDepth
    · rw [examineGiven_of_le hd]
      exact h v
    · rw [examineGiven_of_lt (Nat.not_le.mp hd)]
      exact List.nodup_nil
  | none =>
    cases hs : node.substitute with
    | default v =>
      rw [examineField_default hs]
      have hroot : [] ∉ (node.examine limits depth v).defaulted := fun hm =>
        (usesDefault_of_mem_defaulted hn hm).1 rfl
      exact List.nodup_cons.mpr ⟨hroot, h v⟩
    | missing =>
      rw [examineField_missing hs]
      exact List.nodup_nil
    | empty v =>
      rw [examineField_empty hs]
      exact h v
    | nothing =>
      rw [examineField_nothing hs]
      exact List.nodup_nil

theorem nodup_defaulted (hn : node.WellFormed) (depth : Nat) (v : Json) :
    (node.examine limits depth v).defaulted.Nodup := by
  have hunder : ∀ (s t : Step) (a b : Path), s :: a = t :: b → s = t ∧ a = b :=
    fun s t a b h => List.cons.inj h
  induction node, v using inductionAlong generalizing depth with
  | other node v hk =>
    rw [examine_of_not_admits hk, Limits.defaulted_mismatch]
    exact List.nodup_nil
  | leaf header type allowed v hk =>
    rw [examine_leaf hk]
    exact List.nodup_nil
  | openObject header members =>
    rw [examine_openObject, Limits.defaulted_carry]
    exact List.nodup_nil
  | object header properties members ih =>
    cases hn with
    | object _ hd hp =>
      rw [defaulted_examine_object]
      refine nodup_flatMap_under (nodup_keySteps hd) hunder fun p hm => ?_
      have hnode := hp p.1 p.2 hm
      exact nodup_defaulted_field hnode (fun v => ih p.1 p.2 hm v hnode (depth + 1)) _
  | array header unique items elements ih =>
    cases hn with
    | array _ hi =>
      by_cases hl : elements.length ≤ limits.maxArrayLength
      · rw [defaulted_examine_array hl]
        refine nodup_flatMap_under (nodup_indexSteps elements) hunder fun p _ => ?_
        have hfield := nodup_defaulted_field hi (fun v => ih v hi (depth + 1)) (some p.1)
        rwa [examineField_some] at hfield
      · rw [examine_array_of_lt (Nat.not_le.mp hl)]
        exact List.nodup_nil

/-- At a field left out its own default is recorded, and what is recorded in what stands in
for it. -/
theorem mem_defaulted_none : path ∈ (node.examineField limits depth none).defaulted ↔
    (path = [] ∧ ∃ v, node.header.default = some v) ∨
      ∃ w, node.substitute.value? = some w ∧ path ∈ (node.examine limits depth w).defaulted := by
  have hdefault : ∀ v, node.header.default = some v ↔ node.substitute = .default v :=
    fun v => substitute_eq_default_iff.symm
  simp only [hdefault]
  cases hs : node.substitute with
  | default w =>
    rw [examineField_default hs]
    simp [Substitute.value?, Path.root]
  | missing =>
    rw [examineField_missing hs]
    simp [Substitute.value?]
  | empty w =>
    rw [examineField_empty hs]
    simp [Substitute.value?]
  | nothing =>
    rw [examineField_nothing hs]
    simp [Substitute.value?]

theorem mem_defaulted_field
    (h : ∀ v, (node.examine limits depth v).WithinLimits → ∀ path,
      path ∈ (node.examine limits depth v).defaulted ↔
        ∃ inner w, node.TakesDefault (some v) path inner w)
    (hfield : (node.examineField limits depth field).WithinLimits) (path : Path) :
    path ∈ (node.examineField limits depth field).defaulted ↔
      ∃ inner w, node.TakesDefault field path inner w := by
  cases field with
  | some v =>
    rw [Checked.WithinLimits, findsOnly_examineField_some] at hfield
    obtain ⟨hle, hv⟩ := withinLimits_examineGiven.mp hfield
    rw [examineField_some, examineGiven_of_le hle]
    exact h v hv path
  | none =>
    rw [Checked.WithinLimits, findsOnly_examineField_none] at hfield
    rw [mem_defaulted_none]
    constructor
    · rintro (⟨rfl, v, hv⟩ | ⟨w, hw, hin⟩)
      · exact ⟨node, v, .here hv⟩
      · obtain ⟨inner, v, hv⟩ := (h w (hfield.2 w hw) path).mp hin
        exact ⟨inner, v, takesDefault_none_iff.mpr (.inr ⟨w, hw, hv⟩)⟩
    · rintro ⟨inner, v, htakes⟩
      rcases takesDefault_none_iff.mp htakes with ⟨hpath, -, hv⟩ | ⟨w, hw, hv⟩
      · exact .inl ⟨hpath, v, hv⟩
      · exact .inr ⟨w, hw, (h w (hfield.2 w hw) path).mpr ⟨inner, v, hv⟩⟩

/-- A look that meets no limit records exactly the paths at which a default is taken. -/
theorem mem_defaulted_iff (h : (node.examine limits depth v).WithinLimits) (path : Path) :
    path ∈ (node.examine limits depth v).defaulted ↔
      ∃ inner w, node.TakesDefault (some v) path inner w := by
  induction node, v using inductionAlong generalizing depth path with
  | other node v hk =>
    rw [examine_of_not_admits hk, Limits.defaulted_mismatch]
    refine iff_of_false List.not_mem_nil ?_
    rintro ⟨inner, w, htakes⟩
    cases htakes with
    | field hr =>
      cases hr
      cases hk
    | element hr =>
      cases hr
      cases hk
  | leaf header type allowed v hk =>
    rw [examine_leaf hk]
    refine iff_of_false List.not_mem_nil ?_
    rintro ⟨inner, w, htakes⟩
    cases htakes
  | openObject header members =>
    rw [examine_openObject, Limits.defaulted_carry]
    refine iff_of_false List.not_mem_nil ?_
    rintro ⟨inner, w, htakes⟩
    cases htakes
  | object header properties members ih =>
    have hfields := (findsOnly_examine_object.mp h).1
    have hfield : ∀ name node, (name, node) ∈ properties → ∀ path,
        path ∈ (node.examineField limits (depth + 1) (fieldValue members name)).defaulted ↔
          ∃ inner w, node.TakesDefault (fieldValue members name) path inner w :=
      fun name node hm => mem_defaulted_field (fun v hv => ih name node hm v hv)
        (hfields name node hm)
    rw [defaulted_examine_object, List.mem_flatMap]
    constructor
    · rintro ⟨⟨name, node⟩, hm, hin⟩
      obtain ⟨rest, hrest, rfl⟩ := List.mem_map.mp hin
      obtain ⟨inner, w, htakes⟩ := (hfield name node hm rest).mp hrest
      exact ⟨inner, w, .field rfl hm htakes⟩
    · rintro ⟨inner, w, htakes⟩
      cases htakes with
      | field hr hm htakes =>
        cases hr
        exact ⟨_, hm, List.mem_map_of_mem ((hfield _ _ hm _).mpr ⟨inner, w, htakes⟩)⟩
  | array header unique items elements ih =>
    have hl := length_le_of_withinLimits h
    have hlook : ∀ v ∈ elements, depth + 1 ≤ limits.maxDepth ∧
        (items.examine limits (depth + 1) v).WithinLimits := fun v hm =>
      withinLimits_examineGiven.mp (((findsOnly_examine_array hl).mp h).1 v hm)
    rw [defaulted_examine_array hl, List.mem_flatMap]
    constructor
    · rintro ⟨⟨v, i⟩, hm, hin⟩
      obtain ⟨rest, hrest, rfl⟩ := List.mem_map.mp hin
      obtain ⟨hle, hwithin⟩ := hlook v (List.fst_mem_of_mem_zipIdx hm)
      rw [examineGiven_of_le hle] at hrest
      obtain ⟨inner, w, htakes⟩ := (ih v hwithin rest).mp hrest
      exact ⟨inner, w, .element rfl (List.mem_zipIdx_iff_getElem?.mp hm) htakes⟩
    · rintro ⟨inner, w, htakes⟩
      cases htakes with
      | @element _ _ _ _ _ _ i v _ rest hr hv htakes =>
        cases hr
        obtain ⟨hle, hwithin⟩ := hlook v (List.mem_of_getElem? hv)
        have hrest := (ih v hwithin rest).mpr ⟨inner, w, htakes⟩
        rw [← examineGiven_of_le hle] at hrest
        exact ⟨(v, i), List.mem_zipIdx_iff_getElem?.mpr hv, List.mem_map_of_mem hrest⟩

/-! ### What a recorded path leads to -/

namespace TakesDefault

theorem default_eq (h : node.TakesDefault field path inner v) : inner.header.default = some v := by
  induction h with
  | here hv => exact hv
  | field _ _ _ ih => exact ih
  | element _ _ _ ih => exact ih

theorem at?_eq (hn : node.WellFormed) (h : node.TakesDefault field path inner v) :
    node.at? path = some inner := by
  induction h with
  | here => exact at?_nil _
  | field _ hm _ ih =>
    cases hn with
    | object _ hd hp => rw [at?, Members.lookup_of_mem hd hm, Option.bind_some, ih (hp _ _ hm)]
  | element _ _ _ ih =>
    cases hn with
    | array _ hi => exact ih hi

/-- Nothing but a null is given where a default is taken. -/
theorem leavesOut (hfield : ∀ w, field = some w → w.WellKeyed)
    (h : node.TakesDefault field path inner v) : ∀ w, field = some w → w.LeavesOut path := by
  induction h with
  | here => exact fun w hw => by cases hw
  | field hr _ _ ih =>
    rintro w rfl
    cases hr
    have hwell := hfield _ rfl
    refine Json.leavesOut_member.mpr fun u hu => ?_
    cases hnull : u.isNull with
    | true => exact Json.leavesOut_of_isNull hnull _
    | false =>
      cases hwell with
      | object hkeys hvalues =>
        refine ih ?_ u (fieldValue_of_mem hkeys hu hnull)
        exact fun w hw => (Json.WellKeyed.object hkeys hvalues).fieldValue hw
  | element hr hi _ ih =>
    rintro w rfl
    cases hr
    refine Json.leavesOut_element.mpr fun u hu => ?_
    rw [hi] at hu
    cases hu
    refine ih ?_ _ rfl
    rintro w ⟨⟩
    cases hfield _ rfl with
    | array hvalues => exact hvalues _ (List.mem_of_getElem? hi)

/-- Filled, the field has the filled default at the path. -/
theorem holds_filled (hn : node.WellFormed) (h : node.TakesDefault field path inner v) :
    ∃ filled, node.fillField field = some filled ∧ filled.Holds path (inner.fill v) := by
  induction h with
  | @here node v hv =>
    have hsubstitute : node.substitute.value? = some v := by
      rw [substitute_eq_default_iff.mpr hv]
      rfl
    refine ⟨node.fill v, ?_, .self _⟩
    rw [fillField, resolve_none, hsubstitute, Option.map_some]
  | field hr hm _ ih =>
    cases hn with
    | object _ hd hp =>
      obtain ⟨filled, hfilled, hholds⟩ := ih (hp _ _ hm)
      refine ⟨_, by rw [fillField, hr, Option.map_some, fill_object], .member ?_ hholds⟩
      exact (mem_replaceDeclared hd hm).mpr hfilled
  | element hr hi _ ih =>
    cases hn with
    | array _ hitems =>
      obtain ⟨filled, hfilled, hholds⟩ := ih hitems
      cases hfilled
      refine ⟨_, by rw [fillField, hr, Option.map_some, fill_array], .element ?_ hholds⟩
      rw [List.getElem?_map, hi, Option.map_some]

end TakesDefault

/-! ### Fields that are left out -/

/-- What is left out in a field is left out in what stands in for it as well, unless the
field takes its own default. -/
theorem leavesOut_resolved (node : Schema) {step : Step}
    (hout : ∀ w, field = some w → w.LeavesOut (step :: path)) :
    (∃ v, node.TakesDefault field [] node v) ∨
      ∀ w, node.resolve field = some w → w.LeavesOut (step :: path) := by
  cases field with
  | some v => exact .inr fun w hw => hout w hw
  | none =>
    cases hs : node.substitute with
    | default v => exact .inl ⟨v, .here (substitute_eq_default_iff.mp hs)⟩
    | missing | nothing =>
      refine .inr fun w hw => ?_
      rw [resolve_none, hs] at hw
      cases hw
    | empty v =>
      refine .inr fun w hw => ?_
      rw [resolve_none, hs] at hw
      cases hw
      intro u hu
      cases (holds_of_substitute_empty hs hu).1

/-- Only an object is filled to an object. -/
theorem exists_object_of_fill {header : Header} {properties : List (String × Schema)}
    {members : List (String × Json)} (h : (object header properties).fill w = .object members) :
    ∃ us, w = .object us := by
  cases w with
  | object us => exact ⟨us, rfl⟩
  | null | bool | number | string | array => cases h

/-- What a filled object has below a declared field comes from the filled field. -/
theorem filled_field_of_holds {header : Header} {properties : List (String × Schema)}
    (hd : (properties.map Prod.fst).Nodup) {name : String} {child : Schema}
    (hm : (name, child) ∈ properties) {u : Json}
    (h : ((object header properties).fill w).Holds (.key name :: path) u) :
    ∃ members filled, w = .object members ∧
      child.fillField (fieldValue members name) = some filled ∧ filled.Holds path u := by
  generalize hfill : (object header properties).fill w = outer at h
  cases h with
  | @member _ _ filled _ _ hin hholds =>
    obtain ⟨members, rfl⟩ := exists_object_of_fill hfill
    rw [fill_object] at hfill
    cases hfill
    exact ⟨members, filled, rfl, (mem_replaceDeclared hd hm).mp hin, hholds⟩

/-- What a filled array has below an element comes from the filled element. -/
theorem filled_element_of_holds {header : Header} {unique : Bool} {items : Schema} {i : Nat}
    {u : Json} (h : ((array header unique items).fill w).Holds (.index i :: path) u) :
    ∃ elements v, w = .array elements ∧ elements[i]? = some v ∧ (items.fill v).Holds path u := by
  cases w with
  | array elements =>
    rw [fill_array] at h
    cases h with
    | element hi hholds =>
      rw [List.getElem?_map, Option.map_eq_some_iff] at hi
      obtain ⟨v, hv, rfl⟩ := hi
      exact ⟨elements, v, rfl, hv, hholds⟩
  | null | bool | number | string | object => cases h

/-- A field with a default that is left out lies on the way into a default that is taken, if
the object around it is there after filling. -/
theorem exists_takesDefault (hn : node.WellFormed) {parent : Path} {name : String}
    (hat : node.at? (parent ++ [.key name]) = some inner) (hv : inner.header.default = some v)
    {filled : Json} (hfilled : node.fillField field = some filled)
    {members : List (String × Json)} (hholds : filled.Holds parent (.object members))
    (hout : ∀ w, field = some w → w.LeavesOut (parent ++ [.key name])) :
    ∃ place used u, place <+: parent ++ [.key name] ∧ node.TakesDefault field place used u := by
  obtain ⟨w, hw, rfl⟩ := Option.map_eq_some_iff.mp hfilled
  induction parent generalizing node field w with
  | nil =>
    rcases leavesOut_resolved node hout with ⟨u, htakes⟩ | hresolved
    · exact ⟨[], node, u, List.nil_prefix, htakes⟩
    · cases node with
      | leaf | openObject | array => cases hat
      | object header properties =>
        obtain ⟨child, hchild, hinner⟩ := Option.bind_eq_some_iff.mp hat
        rw [at?_nil] at hinner
        cases hinner
        generalize hfill : (object header properties).fill w = outer at hholds
        cases hholds
        obtain ⟨us, rfl⟩ := exists_object_of_fill hfill
        have habsent : fieldValue us name = none := by
          refine Option.eq_none_iff_forall_ne_some.mpr fun u hu => ?_
          have hgiven := Json.leavesOut_member.mp (hresolved _ hw) u (mem_of_fieldValue hu)
          have hnull := hgiven u (.self u)
          rw [isNull_of_fieldValue hu] at hnull
          cases hnull
        refine ⟨[.key name], inner, v, List.prefix_rfl, ?_⟩
        refine .field hw (Members.mem_of_lookup hchild) ?_
        rw [habsent]
        exact .here hv
  | cons step rest ih =>
    rcases leavesOut_resolved node hout with ⟨u, htakes⟩ | hresolved
    · exact ⟨[], node, u, List.nil_prefix, htakes⟩
    · cases node with
      | leaf | openObject => cases step <;> cases hat
      | object header properties =>
        cases step with
        | index => cases hat
        | key key =>
          cases hn with
          | object _ hd hp =>
            obtain ⟨child, hchild, hinner⟩ := Option.bind_eq_some_iff.mp hat
            have hm := Members.mem_of_lookup hchild
            obtain ⟨us, below, rfl, hbelow, hholds⟩ := filled_field_of_holds hd hm hholds
            obtain ⟨x, hx, rfl⟩ := Option.map_eq_some_iff.mp hbelow
            have hgiven : ∀ u, fieldValue us key = some u → u.LeavesOut (rest ++ [.key name]) :=
              fun u hu => Json.leavesOut_member.mp (hresolved _ hw) u (mem_of_fieldValue hu)
            obtain ⟨place, used, u, hprefix, htakes⟩ :=
              ih (hp _ _ hm) hinner hgiven x hx hbelow hholds
            exact ⟨.key key :: place, used, u, List.cons_prefix_cons.mpr ⟨rfl, hprefix⟩,
              .field hw hm htakes⟩
      | array header unique items =>
        cases step with
        | key => cases hat
        | index i =>
          cases hn with
          | array _ hi =>
            obtain ⟨us, u, rfl, hu, hholds⟩ := filled_element_of_holds hholds
            have hgiven : ∀ w, some u = some w → w.LeavesOut (rest ++ [.key name]) := by
              rintro w ⟨⟩
              exact Json.leavesOut_element.mp (hresolved _ hw) u hu
            obtain ⟨place, used, x, hprefix, htakes⟩ := ih hi hat hgiven u rfl rfl hholds
            exact ⟨.index i :: place, used, x, List.cons_prefix_cons.mpr ⟨rfl, hprefix⟩,
              .element hw hu htakes⟩

/-! ### Validations -/

section Validation

variable {candidate : Json}
  (hlimits : ∀ x ∈ (node.validate limits candidate).violations, x.kind ≠ .limitExceeded)

include hlimits

/-- A validation that meets no limit leaves the filled configuration. -/
theorem normalized_eq_fill :
    (node.validate limits candidate).normalized =
      (node.fillField candidate.asField).getD .null := by
  have hfield : (node.examineField limits 0 candidate.asField).WithinLimits := hlimits
  rw [validate_eq, value_examineField_eq_fill (fun v hv => value_examine_eq_fill hv) hfield]

theorem mem_defaulted_validate : path ∈ (node.validate limits candidate).defaulted ↔
    ∃ inner v, node.TakesDefault candidate.asField path inner v :=
  mem_defaulted_field (fun _ hv => mem_defaulted_iff hv) hlimits path

/-- Where a default is taken, the configuration has what it is filled to, and nothing else. -/
theorem holds_normalized_iff (hn : node.WellFormed) (hc : candidate.WellKeyed)
    (htakes : node.TakesDefault candidate.asField path inner v) (w : Json) :
    (node.validate limits candidate).normalized.Holds path w ↔ w = inner.fill v := by
  obtain ⟨filled, hfilled, hholds⟩ := htakes.holds_filled hn
  have hnormalized : (node.validate limits candidate).normalized = filled := by
    rw [normalized_eq_fill hlimits, hfilled, Option.getD_some]
  have hwell : (node.validate limits candidate).normalized.WellKeyed :=
    wellKeyed_normalized hn hc
  rw [hnormalized] at hwell ⊢
  constructor
  · exact fun hw => hwell.eq_of_holds hw hholds
  · rintro rfl
    exact hholds

/-- Where a default is used with which nothing is wrong on its own, nothing is found. -/
theorem not_found_at_default (hn : node.WellFormed)
    (hpath : path ∈ (node.validate limits candidate).defaulted) (hat : node.at? path = some inner)
    (hdefault : inner.header.default = some v) {loaded : Limits}
    (hclean : (inner.examine loaded 0 v).violations = []) {x : Violation}
    (hx : x ∈ (node.validate limits candidate).violations) : ¬ path <+: x.path := by
  intro hbelow
  obtain ⟨used, u, hused, hu, hmem⟩ := usesDefault_validate hn hpath
  rw [hat] at hused
  cases hused
  rw [hdefault] at hu
  cases hu
  have hinner := hn.of_contains (contains_of_at? hat)
  -- What is found there is found in the default, and that can be nothing but a limit.
  obtain ⟨y, hy, rfl⟩ := (hmem x hbelow).mp hx
  have hlimit : y.kind = .limitExceeded :=
    findsOnly_limits_of_clean hinner (hinner.header v hdefault).1
      (Checked.findsOnly_false_iff.mpr hclean) _ y hy
  exact hlimits _ hx hlimit

/-- A field with a default that the candidate leaves out lies on the way into a recorded
default, if the object around it is there. -/
theorem exists_recorded (hn : node.WellFormed) {parent : Path} {name : String}
    (hat : node.at? (parent ++ [.key name]) = some inner) (hv : inner.header.default = some v)
    {members : List (String × Json)}
    (hholds : (node.validate limits candidate).normalized.Holds parent (.object members))
    (hout : candidate.LeavesOut (parent ++ [.key name])) :
    ∃ place ∈ (node.validate limits candidate).defaulted, place <+: parent ++ [.key name] := by
  rw [normalized_eq_fill hlimits] at hholds
  cases hfilled : node.fillField candidate.asField with
  | none =>
    rw [hfilled] at hholds
    cases (Json.holds_of_isNull rfl hholds).2
  | some filled =>
    rw [hfilled] at hholds
    obtain ⟨place, used, u, hprefix, htakes⟩ :=
      exists_takesDefault hn hat hv hfilled hholds (Json.leavesOut_iff_asField.mp hout)
    exact ⟨place, (mem_defaulted_validate hlimits).mpr ⟨used, u, htakes⟩, hprefix⟩

end Validation

/-- A default with which nothing is wrong is filled when it is validated on its own. -/
theorem normalized_of_clean (hnull : v.isNull = false)
    (hclean : (node.examine limits 0 v).violations = []) :
    (node.validate limits v).normalized = node.fill v := by
  have hwithin : (node.examine limits 0 v).WithinLimits := by
    rw [Checked.WithinLimits, Checked.FindsOnly, hclean]
    exact fun x hx => absurd hx List.not_mem_nil
  rw [validate_of_not_null hnull, value_examine_eq_fill hwithin]

end Schema

/-- What is recorded of the defaults that a validation used is right, and is all there is. -/
structure Report.RecordsDefaults (report : Report) (node : Schema) (candidate : Json) : Prop where
  /-- No path is recorded twice. -/
  nodup : report.defaulted.Nodup
  /-- Where a default is recorded, one is declared, the candidate has nothing, and the
  configuration has the default as a validation of its own leaves it. -/
  used : ∀ path ∈ report.defaulted, ∃ inner v, node.at? path = some inner ∧
    inner.header.default = some v ∧ candidate.LeavesOut path ∧
    (∀ w, report.normalized.Holds path w ↔ w = (inner.validate {} v).normalized) ∧
    ∀ x ∈ report.violations, x.path = path → x.kind ≠ .missingRequiredField
  /-- A declared field with a default that the candidate leaves out is recorded, if the
  object around it is there and does not come from another recorded default. -/
  recorded : ∀ parent name inner v members, node.at? (parent ++ [.key name]) = some inner →
    inner.header.default = some v → report.normalized.Holds parent (.object members) →
    candidate.LeavesOut (parent ++ [.key name]) →
    (∀ place ∈ report.defaulted, place <+: parent ++ [.key name] →
      place = parent ++ [.key name]) →
    parent ++ [.key name] ∈ report.defaulted

namespace Catalog

/-- In a stage of an accepted catalog a validation that meets no limit records the used
defaults. -/
theorem records_defaults {definition : Json} (hd : definition.WellKeyed)
    {catalog : Catalog} (hcatalog : Catalog.ofJson definition = .ok catalog)
    {category : Category} {typeKey : String} {node : Schema}
    (hstage : catalog.lookup category typeKey = .ok node) {limits : Limits} {candidate : Json}
    (hc : candidate.WellKeyed)
    (hlimits : ∀ x ∈ (node.validate limits candidate).violations, x.kind ≠ .limitExceeded) :
    (node.validate limits candidate).RecordsDefaults node candidate := by
  have hnode := wellFormed_of_lookup hd hcatalog hstage
  have hfield : ∀ w, candidate.asField = some w → w.WellKeyed := fun w hw =>
    Json.eq_of_asField hw ▸ hc
  refine ⟨?_, ?_, ?_⟩
  · exact Schema.nodup_defaulted_field hnode (Schema.nodup_defaulted hnode 0) candidate.asField
  · intro path hpath
    obtain ⟨inner, v, htakes⟩ := (Schema.mem_defaulted_validate hlimits).mp hpath
    have hat := htakes.at?_eq hnode
    have hdefault := htakes.default_eq
    have hinner := hnode.of_contains (Schema.contains_of_at? hat)
    have hnull := (hinner.header v hdefault).2
    have hclean := violations_default_of_lookup hd hcatalog hstage (Schema.contains_of_at? hat)
      hdefault
    refine ⟨inner, v, hat, hdefault, Json.leavesOut_iff_asField.mpr (htakes.leavesOut hfield),
      fun w => ?_, fun x hx hplace _ => ?_⟩
    · rw [Schema.normalized_of_clean hnull hclean]
      exact Schema.holds_normalized_iff hlimits hnode hc htakes w
    · exact Schema.not_found_at_default hlimits hnode hpath hat hdefault hclean hx
        (hplace ▸ List.prefix_rfl)
  · intro parent name inner v members hat hdefault hholds hout honly
    obtain ⟨place, hplace, hprefix⟩ :=
      Schema.exists_recorded hlimits hnode hat hdefault hholds hout
    rwa [honly place hplace hprefix] at hplace

/-- A null leaves out a field whose default leaves out another one. -/
theorem records_defaults_retry :
    let candidate := Json.object [("name", .string "a"), ("retry", .null)]
    let report := retrySchema.validate {} candidate
    report.defaulted = [[.key "retry"], [.key "retry", .key "pause"]] ∧
      report.RecordsDefaults retrySchema candidate := by
  intro candidate report
  have hlimits : ∀ x ∈ report.violations, x.kind ≠ .limitExceeded := by decide +kernel
  exact ⟨by decide +kernel, records_defaults wellKeyed_retryCatalogDefinition
    ofJson_retryCatalogDefinition
    (show retryCatalog.lookup .source "retry" = .ok retrySchema from rfl)
    (show candidate.WellKeyed by decide) hlimits⟩

end Catalog

end PipelineConfig
