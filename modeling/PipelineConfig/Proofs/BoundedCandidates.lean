import PipelineConfig.Proofs.Filling

/-!
# The limits bound what a candidate gives

The walk along the schema compares depths, and values that no node describes are
measured as a whole when they are carried over. Together they bound everything that a
candidate gives: if no limit is met, nothing in it lies below the greatest depth, and no
array in it is too long for its node. And where the candidate has a value, a limit is met
only for a reason that lies in that value. What stands in for a value left out is another
matter, and so is a null that leaves the whole candidate out.
-/

namespace PipelineConfig

namespace Limits

variable {limits : Limits} {depth : Nat} {v : Json} {x : Violation}

/-- What is carried over is blamed at its own place, for reaching too deep. -/
theorem of_mem_violations_carry (h : x ∈ (limits.carry depth v).violations) :
    x.path = [] ∧ limits.maxDepth < depth + v.height := by
  rw [violations_carry] at h
  split at h
  · next hdeep =>
    cases List.mem_singleton.mp h
    exact ⟨rfl, hdeep⟩
  · cases h

end Limits

namespace Schema

variable {limits : Limits} {depth : Nat} {node : Schema} {v : Json}

/-- Inside a value of another kind than its node no place is described. -/
theorem at?_of_not_admits (hk : node.kind.admits v = false) {path : Path} {u : Json}
    {inner : Schema} (hu : v.Holds path u) (hat : node.at? path = some inner) :
    inner = node ∧ u = v := by
  cases hu with
  | self =>
    rw [at?_nil] at hat
    cases hat
    exact ⟨rfl, rfl⟩
  | member => cases node <;> first | cases hat | cases hk
  | element => cases node <;> first | cases hat | cases hk

/-- What a value at the given depth has in it, other than nulls that leave fields out,
lies within the greatest depth, and no array in it is too long for its node. -/
structure Bounded (limits : Limits) (node : Schema) (depth : Nat) (v : Json) : Prop where
  /-- Nothing lies too deep. -/
  depth_le : ∀ path u, v.Holds path u → ¬ node.Clears path u →
    depth + path.length ≤ limits.maxDepth
  /-- No array is too long. -/
  length_le : ∀ path elements header unique items, v.Holds path (.array elements) →
    node.at? path = some (.array header unique items) →
    elements.length ≤ limits.maxArrayLength

/-- A value that is carried over as a whole is bounded by its height. -/
theorem bounded_of_carry (hw : (limits.carry depth v).WithinLimits)
    (hlength : ∀ path elements header unique items, v.Holds path (.array elements) →
      node.at? path = some (.array header unique items) →
      elements.length ≤ limits.maxArrayLength) : node.Bounded limits depth v := by
  have hheight := Limits.withinLimits_carry.mp hw
  refine ⟨fun path u hu _ => ?_, hlength⟩
  have hlen := Json.height_le_iff.mp (Nat.le_refl v.height) path u hu
  omega

theorem bounded_object {header : Header} {properties : List (String × Schema)}
    {members : List (String × Json)} (hkeys : (members.map Prod.fst).Nodup)
    (hd : (properties.map Prod.fst).Nodup) (hdepth : depth ≤ limits.maxDepth)
    (hfields : ∀ name child, (name, child) ∈ properties → ∀ w,
      fieldValue members name = some w → child.Bounded limits (depth + 1) w)
    (hothers : ∀ name w, (name, w) ∈ undeclared properties members →
      depth + 1 + w.height ≤ limits.maxDepth) :
    (object header properties).Bounded limits depth (.object members) := by
  refine ⟨fun path u hu hclears => ?_, fun path elements header unique items hu hat => ?_⟩
  · cases hu with
    | self => exact hdepth
    | @member _ name w _ rest hm hu =>
      rw [List.length_cons]
      by_cases hdeclared : name ∈ properties.map Prod.fst
      · obtain ⟨child, hp⟩ := Members.exists_of_mem_keys hdeclared
        cases hnull : w.isNull with
        | true =>
          obtain ⟨rfl, rfl⟩ := Json.holds_of_isNull hnull hu
          exact absurd (clears_of_mem hdeclared hnull) hclears
        | false =>
          have hchild := hfields name child hp w (fieldValue_of_mem hkeys hm hnull)
          have hle := hchild.depth_le rest u hu fun hc =>
            hclears (hc.field (Members.lookup_of_mem hd hp))
          omega
      · have hheight := hothers name w (mem_undeclared.mpr ⟨hm, hdeclared⟩)
        have hlen := Json.height_le_iff.mp (Nat.le_refl w.height) rest u hu
        omega
  · cases hu with
    | @member _ name w _ rest hm hu =>
      obtain ⟨child, hl, hat⟩ := Option.bind_eq_some_iff.mp hat
      have hnull : w.isNull = false := by
        refine Bool.eq_false_iff.mpr fun hnull => ?_
        obtain ⟨-, rfl⟩ := Json.holds_of_isNull hnull hu
        cases hnull
      have hchild := hfields name child (Members.mem_of_lookup hl) w
        (fieldValue_of_mem hkeys hm hnull)
      exact hchild.length_le rest elements header unique items hu hat

theorem bounded_array {header : Header} {unique : Bool} {items : Schema} {elements : List Json}
    (hdepth : depth ≤ limits.maxDepth) (hl : elements.length ≤ limits.maxArrayLength)
    (helements : ∀ w ∈ elements, items.Bounded limits (depth + 1) w) :
    (array header unique items).Bounded limits depth (.array elements) := by
  refine ⟨fun path u hu hclears => ?_, fun path elements' header' unique' items' hu hat => ?_⟩
  · cases hu with
    | self => exact hdepth
    | @element _ i w _ rest hi hu =>
      have hle := (helements w (List.mem_of_getElem? hi)).depth_le rest u hu
        fun hc => hclears hc.element
      rw [List.length_cons]
      omega
  · cases hu with
    | self => exact hl
    | @element _ i w _ rest hi hu =>
      exact (helements w (List.mem_of_getElem? hi)).length_le rest _ _ _ _ hu hat

/-- A look that meets no limit bounds the value. -/
theorem bounded_of_withinLimits (hn : node.WellFormed) (hv : v.WellKeyed)
    (hdepth : depth ≤ limits.maxDepth) (hw : (node.examine limits depth v).WithinLimits) :
    node.Bounded limits depth v := by
  induction node, v using inductionAlong generalizing depth with
  | other node v hk =>
    rw [examine_of_not_admits hk] at hw
    refine bounded_of_carry (Limits.findsOnly_mismatch.mp hw).2 ?_
    intro path elements header unique items hu hat
    obtain ⟨rfl, rfl⟩ := at?_of_not_admits hk hu hat
    cases hk
  | leaf header type allowed v hk =>
    have hscalar : ∀ path u, v.Holds path u → path = [] := by
      intro path u hu
      cases hu with
      | self => rfl
      | member | element => cases type <;> cases hk
    refine ⟨fun path u hu _ => ?_, fun path elements _ _ _ hu hat => ?_⟩
    · rw [hscalar path u hu]
      exact hdepth
    · rw [hscalar path _ hu] at hat
      cases hat
  | openObject header members =>
    rw [examine_openObject] at hw
    refine bounded_of_carry hw fun path elements _ _ _ hu hat => ?_
    cases hu with
    | member => cases hat
  | object header properties members ih =>
    cases hn with
    | object _ hd hp =>
      obtain ⟨hfields, hothers⟩ := findsOnly_examine_object.mp hw
      have hkeys : (members.map Prod.fst).Nodup := by
        cases hv with
        | object hkeys => exact hkeys
      refine bounded_object hkeys hd hdepth (fun name child hm w hf => ?_) fun name w hu => ?_
      · have hgiven := hfields name child hm
        rw [hf, findsOnly_examineField_some] at hgiven
        obtain ⟨hle, hchild⟩ := withinLimits_examineGiven.mp hgiven
        exact ih name child hm w (hp name child hm) (hv.fieldValue hf) hle hchild
      · exact Limits.withinLimits_carry.mp (hothers name w hu)
  | array header unique items elements ih =>
    cases hn with
    | array _ hi =>
      cases hv with
      | array hvalues =>
        have hl := length_le_of_withinLimits hw
        refine bounded_array hdepth hl fun w hm => ?_
        obtain ⟨hle, hchild⟩ :=
          withinLimits_examineGiven.mp (((findsOnly_examine_array hl).mp hw).1 w hm)
        exact ih w hi (hvalues w hm) hle hchild

/-- A limit is met at the path for a reason that lies in the value there. -/
inductive Exceeds (limits : Limits) (node : Schema) (depth : Nat) (path : Path) : Json → Prop where
  /-- The value is an array that is too long for its node. -/
  | tooLong {elements : List Json} {header : Header} {unique : Bool} {items : Schema} :
      node.at? path = some (.array header unique items) →
      limits.maxArrayLength < elements.length → Exceeds limits node depth path (.array elements)
  /-- Something in the value lies too deep. -/
  | tooDeep {u w : Json} {below : Path} : u.Holds below w →
      limits.maxDepth < depth + (path ++ below).length → Exceeds limits node depth path u

section Exceeds

variable {header : Header} {properties : List (String × Schema)} {name : String}
  {unique : Bool} {child : Schema} {path : Path} {u : Json}

/-- A reason further in is a reason seen from here. -/
theorem Exceeds.field (hl : properties.lookup name = some child)
    (h : child.Exceeds limits (depth + 1) path u) :
    (object header properties).Exceeds limits depth (.key name :: path) u := by
  cases h with
  | tooLong hat hlong =>
    have hstep : (object header properties).at? (.key name :: path) = child.at? path := by
      rw [at?, hl, Option.bind_some]
    exact .tooLong (hstep.trans hat) hlong
  | tooDeep hw hdeep =>
    refine .tooDeep hw ?_
    rw [List.cons_append, List.length_cons]
    omega

theorem Exceeds.element {i : Nat} (h : child.Exceeds limits (depth + 1) path u) :
    (array header unique child).Exceeds limits depth (.index i :: path) u := by
  cases h with
  | tooLong hat hlong => exact .tooLong hat hlong
  | tooDeep hw hdeep =>
    refine .tooDeep hw ?_
    rw [List.cons_append, List.length_cons]
    omega

/-- A value that reaches too deep is reason enough at its own place. -/
theorem exceeds_of_height (h : limits.maxDepth < depth + path.length + u.height) :
    node.Exceeds limits depth path u := by
  obtain ⟨below, w, hw, hdeep⟩ := Json.exists_holds_beyond h
  refine .tooDeep hw ?_
  rw [List.length_append]
  omega

end Exceeds

/-- Wherever the value has something, a limit is met there only for a reason in it. -/
def Justifies (limits : Limits) (node : Schema) (depth : Nat) (v : Json)
    (found : List Violation) : Prop :=
  ∀ x ∈ found, x.kind = .limitExceeded → ∀ u, v.Holds x.path u → ¬ node.Clears x.path u →
    node.Exceeds limits depth x.path u

theorem justifies_carry : node.Justifies limits depth v (limits.carry depth v).violations := by
  intro x hx _ u hu _
  obtain ⟨hpath, hdeep⟩ := Limits.of_mem_violations_carry hx
  rw [hpath] at hu ⊢
  cases hu
  exact exceeds_of_height hdeep

theorem justifies_examineGiven
    (h : node.Justifies limits depth v (node.examine limits depth v).violations) :
    node.Justifies limits depth v (node.examineGiven limits depth v).violations := by
  by_cases hd : depth ≤ limits.maxDepth
  · rwa [examineGiven_of_le hd]
  · have hlt := Nat.not_le.mp hd
    rw [examineGiven_of_lt hlt]
    intro x hx _ u _ _
    cases List.mem_singleton.mp hx
    exact exceeds_of_height (by simp only [Limits.tooDeep]; omega)

theorem justifies_object {header : Header} {properties : List (String × Schema)}
    {members : List (String × Json)} (hkeys : (members.map Prod.fst).Nodup)
    (hd : (properties.map Prod.fst).Nodup)
    (h : ∀ name child, (name, child) ∈ properties → ∀ w, (name, w) ∈ members →
      child.Justifies limits (depth + 1) w (child.examine limits (depth + 1) w).violations) :
    (object header properties).Justifies limits depth (.object members)
      ((object header properties).examine limits depth (.object members)).violations := by
  intro x hx hkind u hu hclears
  rw [violations_examine_object, List.mem_append, List.mem_flatMap, List.mem_flatMap] at hx
  rcases hx with ⟨⟨name, child⟩, hp, hx⟩ | ⟨⟨name, w⟩, hundeclared, hx⟩
  · obtain ⟨y, hy, rfl⟩ := List.mem_map.mp hx
    cases hu with
    | @member _ _ w _ _ hm hu =>
      cases hnull : w.isNull with
      | true =>
        obtain ⟨hpath, rfl⟩ := Json.holds_of_isNull hnull hu
        have hplace : (Violation.under (.key name) y).path = [.key name] :=
          congrArg (Step.key name :: ·) hpath
        rw [hplace] at hclears
        exact absurd (clears_of_mem (Members.mem_keys hp) hnull) hclears
      | false =>
        have hlookup := Members.lookup_of_mem hd hp
        rw [fieldValue_of_mem hkeys hm hnull, examineField_some] at hy
        have hchild := justifies_examineGiven (h name child hp w hm)
        exact (hchild y hy hkind u hu fun hc => hclears (hc.field hlookup)).field hlookup
  · obtain ⟨y, hy, rfl⟩ := List.mem_map.mp hx
    obtain ⟨hpath, hdeep⟩ := Limits.of_mem_violations_carry hy
    have hplace : (Violation.under (.key name) y).path = [.key name] :=
      congrArg (Step.key name :: ·) hpath
    rw [hplace] at hu ⊢
    cases hu with
    | member hm hu =>
      cases hu
      cases Members.eq_of_mem hkeys hm (mem_undeclared.mp hundeclared).1
      exact exceeds_of_height hdeep

theorem justifies_array {header : Header} {unique : Bool} {items : Schema} {elements : List Json}
    (h : ∀ w ∈ elements,
      items.Justifies limits (depth + 1) w (items.examine limits (depth + 1) w).violations) :
    (array header unique items).Justifies limits depth (.array elements)
      ((array header unique items).examine limits depth (.array elements)).violations := by
  intro x hx hkind u hu hclears
  by_cases hl : elements.length ≤ limits.maxArrayLength
  · rw [violations_examine_array hl, List.mem_append, List.mem_flatMap] at hx
    rcases hx with ⟨⟨w, i⟩, hm, hx⟩ | hx
    · obtain ⟨y, hy, rfl⟩ := List.mem_map.mp hx
      cases hu with
      | @element _ _ w' _ _ hi hu =>
        have hw : elements[i]? = some w := List.mem_zipIdx_iff_getElem?.mp hm
        rw [hw] at hi
        cases hi
        have hchild := justifies_examineGiven (h w (List.mem_of_getElem? hw))
        exact (hchild y hy hkind u hu fun hc => hclears hc.element).element
    · cases unique with
      | false => cases hx
      | true =>
        rw [kind_of_mem_duplicates hx] at hkind
        cases hkind
  · have hlt := Nat.not_le.mp hl
    rw [examine_array_of_lt hlt] at hx
    cases List.mem_singleton.mp hx
    cases hu
    exact .tooLong rfl hlt

/-- A look meets limits only for reasons in the value. -/
theorem justifies_examine (hn : node.WellFormed) (hv : v.WellKeyed) (depth : Nat) :
    node.Justifies limits depth v (node.examine limits depth v).violations := by
  induction node, v using inductionAlong generalizing depth with
  | other node v hk =>
    rw [examine_of_not_admits hk, Limits.violations_mismatch]
    intro x hx hkind
    rcases List.mem_cons.mp hx with rfl | hx
    · cases hkind
    · exact justifies_carry x hx hkind
  | leaf header type allowed v hk =>
    intro x hx hkind
    exact absurd hkind (withinLimits_examine_leaf hk x hx)
  | openObject header members =>
    rw [examine_openObject]
    exact justifies_carry
  | object header properties members ih =>
    cases hn with
    | object _ hd hp =>
      cases hv with
      | object hkeys hvalues =>
        refine justifies_object hkeys hd fun name child hm w hw => ?_
        exact ih name child hm w (hp name child hm) (hvalues name w hw) (depth + 1)
  | array header unique items elements ih =>
    cases hn with
    | array _ hi =>
      cases hv with
      | array hvalues => exact justifies_array fun w hw => ih w hi (hvalues w hw) (depth + 1)

/-- A null leaves the whole candidate out, and so has nothing in it to bound. -/
theorem bounded_of_isNull (hv : v.isNull = true) : node.Bounded limits 0 v := by
  refine ⟨fun path u hu _ => ?_, fun path elements _ _ _ hu _ => ?_⟩
  · obtain ⟨rfl, -⟩ := Json.holds_of_isNull hv hu
    exact Nat.zero_le _
  · obtain ⟨-, rfl⟩ := Json.holds_of_isNull hv hu
    cases hv

/-- The limits bound what a candidate gives, and are met nowhere in it without a reason. -/
theorem validate_bounds_candidate {path : String} {definition : Json} (hd : definition.WellKeyed)
    (hn : Schema.ofJson path definition = .ok node) (limits : Limits) {candidate : Json}
    (hc : candidate.WellKeyed) :
    let report := node.validate limits candidate
    ((∀ x ∈ report.violations, x.kind ≠ .limitExceeded) →
      (∀ place v, candidate.Holds place v → ¬ node.Clears place v →
        place.depth ≤ limits.maxDepth) ∧
      ∀ place elements header unique items, candidate.Holds place (.array elements) →
        node.at? place = some (.array header unique items) →
        elements.length ≤ limits.maxArrayLength) ∧
    ∀ x ∈ report.violations, x.kind = .limitExceeded → ∀ v, candidate.Holds x.path v →
      ¬ node.Clears x.path v → ¬ (x.path = .root ∧ v.isNull = true) →
      (∃ elements header unique items, v = .array elements ∧
        node.at? x.path = some (.array header unique items) ∧
        limits.maxArrayLength < elements.length) ∨
      ∃ below w, v.Holds below w ∧ limits.maxDepth < (x.path ++ below).depth := by
  have hw := wellFormed_of_ofJson hd hn
  intro report
  constructor
  · intro hwithin
    have hbounded : node.Bounded limits 0 candidate := by
      cases hnull : candidate.isNull with
      | true => exact bounded_of_isNull hnull
      | false =>
        have hreport : report = _ := validate_of_not_null hnull
        rw [hreport] at hwithin
        exact bounded_of_withinLimits hw hc (Nat.zero_le _) hwithin
    refine ⟨fun place v hv hclears => ?_, hbounded.length_le⟩
    have hle := hbounded.depth_le place v hv hclears
    rwa [Nat.zero_add] at hle
  · intro x hx hkind v hv hclears hroot
    cases hnull : candidate.isNull with
    | true =>
      obtain ⟨hpath, rfl⟩ := Json.holds_of_isNull hnull hv
      exact absurd ⟨hpath, hnull⟩ hroot
    | false =>
      have hreport : report = _ := validate_of_not_null hnull
      rw [hreport] at hx
      cases justifies_examine hw hc 0 x hx hkind v hv hclears with
      | tooLong hat hlong => exact .inl ⟨_, _, _, _, rfl, hat, hlong⟩
      | tooDeep hbelow hdeep =>
        rw [Nat.zero_add] at hdeep
        exact .inr ⟨_, _, hbelow, hdeep⟩

/-- Two tags are within a length of two, and everything is within a depth of two. A third
tag is blamed, because the tags are too long. -/
theorem validate_bounds_candidate_retry :
    let limits : Limits := { maxDepth := 2, maxArrayLength := 2 }
    let tags := Json.array [.string "a", .string "b", .string "c"]
    let short := Json.object [("name", .null), ("tags", .array [.string "a", .string "b"])]
    let long := Json.object [("name", .string "a"), ("tags", tags)]
    (∀ place v, short.Holds place v → ¬ retrySchema.Clears place v → place.depth ≤ 2) ∧
      (limits.tooLong 3).under (.key "tags") ∈ (retrySchema.validate limits long).violations ∧
      ((∃ elements header unique items, tags = .array elements ∧
          retrySchema.at? [.key "tags"] = some (.array header unique items) ∧
          2 < elements.length) ∨
        ∃ below w, tags.Holds below w ∧ 2 < (Path.depth ([.key "tags"] ++ below))) := by
  intro limits tags short long
  have hshort := validate_bounds_candidate wellKeyed_retryDefinition
    (ofJson_retryDefinition "retry") limits (show short.WellKeyed by decide)
  have hlong := validate_bounds_candidate wellKeyed_retryDefinition
    (ofJson_retryDefinition "retry") limits (show long.WellKeyed by decide)
  have hblamed : (limits.tooLong 3).under (.key "tags") ∈
      (retrySchema.validate limits long).violations := by decide +kernel
  have htags : long.Holds [.key "tags"] tags :=
    .member (List.mem_cons_of_mem _ List.mem_cons_self) (.self tags)
  refine ⟨(hshort.1 (by decide +kernel)).1, hblamed, ?_⟩
  exact hlong.2 _ hblamed rfl tags htags (fun hc => by cases hc.1) (fun hc => by cases hc.2)

/-- A null given as the whole candidate is blamed for the depth of the default that stands
in for it, although nothing in the null itself is too deep or too long. -/
theorem limit_met_at_null :
    let definition := Json.object [("type", .string "object"), ("properties", .object []),
      ("default", .object [("retry", .object [("attempts", .number (.integer 5))])])]
    let limits : Limits := { maxDepth := 1 }
    ∃ node, Schema.ofJson "job" definition = .ok node ∧
      ∃ x ∈ (node.validate limits .null).violations, x.kind = .limitExceeded ∧
        Json.null.Holds x.path .null ∧ ¬ node.Clears x.path .null ∧
        ¬ ((∃ elements header unique items, Json.null = .array elements ∧
            node.at? x.path = some (.array header unique items) ∧
            limits.maxArrayLength < elements.length) ∨
          ∃ below w, Json.null.Holds below w ∧ limits.maxDepth < (x.path ++ below).depth) := by
  intro definition limits
  let value := Json.object [("retry", .object [("attempts", .number (.integer 5))])]
  have hread : Schema.ofJson "job" definition = .ok (.openObject { default := some value }) :=
    ofJson_of_openObject rfl
  refine ⟨_, hread, limits.tooDeep, by decide +kernel, rfl, .self _, ?_, ?_⟩
  · rintro ⟨-, parent, name, header, properties, hpath, -⟩
    exact absurd hpath.symm (List.concat_ne_nil _ _)
  · rintro (⟨elements, header, unique, items, hv, -⟩ | ⟨below, w, hw, hdeep⟩)
    · cases hv
    · cases hw
      exact absurd hdeep (by decide)

end Schema

end PipelineConfig
