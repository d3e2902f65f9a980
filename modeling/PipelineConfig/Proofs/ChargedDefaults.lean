import PipelineConfig.Proofs.Catalogs
import PipelineConfig.Proofs.Filling
import PipelineConfig.Proofs.Substituted

/-!
# What is charged to the limits

A look charges the limits for what a value spells out: for the depth of every value
that is given and of everything that is carried over, and for the length of every
array. It does not charge what stands in for a field left out, but it does charge what
that value spells out in its turn. A look meets no limit exactly if every place that it
reaches fits. So a used default is exempt from the limits exactly if all that it spells
out fits at the place where it is used.
-/

namespace PipelineConfig

namespace Schema

/-- Along the path a look at the first value by the first node comes to the second
value by the second node, if no limit stops it. -/
inductive Reaches : Schema → Json → Path → Schema → Json → Prop where
  /-- It starts at the value itself. -/
  | self (node : Schema) (v : Json) : Reaches node v [] node v
  /-- It goes on to what a declared field has, or to what stands in for it. -/
  | field {header : Header} {properties : List (String × Schema)}
      {members : List (String × Json)} {name : String} {child inner : Schema} {v w : Json}
      {path : Path} : (name, child) ∈ properties →
      child.resolve (fieldValue members name) = some v → Reaches child v path inner w →
      Reaches (.object header properties) (.object members) (.key name :: path) inner w
  /-- It goes on to every element. -/
  | element {header : Header} {unique : Bool} {items inner : Schema} {elements : List Json}
      {i : Nat} {v w : Json} {path : Path} : elements[i]? = some v →
      Reaches items v path inner w →
      Reaches (.array header unique items) (.array elements) (.index i :: path) inner w

/-- The levels below a value that a look charges for what it finds there. -/
inductive Charges : Schema → Json → Nat → Prop where
  /-- A value of another kind is carried over, and charged with all that lies in it. -/
  | other {node : Schema} {v : Json} : node.kind.admits v = false → Charges node v v.height
  /-- So is the value of an open object. -/
  | openObject {header : Header} {members : List (String × Json)} :
      Charges (.openObject header) (.object members) (Json.object members).height
  /-- A declared field that is given lies one level further in. -/
  | field {header : Header} {properties : List (String × Schema)}
      {members : List (String × Json)} {name : String} {child : Schema} {v : Json} :
      (name, child) ∈ properties → fieldValue members name = some v →
      Charges (.object header properties) (.object members) 1
  /-- An undeclared member lies there too, and is charged with all that lies in it. -/
  | undeclared {header : Header} {properties : List (String × Schema)}
      {members : List (String × Json)} {name : String} {v : Json} :
      (name, v) ∈ PipelineConfig.undeclared properties members →
      Charges (.object header properties) (.object members) (1 + v.height)
  /-- An element lies one level further in. -/
  | element {header : Header} {unique : Bool} {items : Schema} {elements : List Json}
      {v : Json} : v ∈ elements → Charges (.array header unique items) (.array elements) 1

/-- Whatever is charged at a value at the given depth lies within the limits. -/
structure Fits (limits : Limits) (depth : Nat) (node : Schema) (v : Json) : Prop where
  /-- No level is too deep. -/
  levels : ∀ n, node.Charges v n → depth + n ≤ limits.maxDepth
  /-- An array is not too long. -/
  length : ∀ elements, node.kind = .array → v = .array elements →
    elements.length ≤ limits.maxArrayLength

variable {limits : Limits} {depth : Nat} {node : Schema}

theorem fits_other {v : Json} (hk : node.kind.admits v = false) :
    node.Fits limits depth v ↔ depth + v.height ≤ limits.maxDepth := by
  constructor
  · exact fun h => h.levels _ (.other hk)
  · intro h
    refine ⟨fun n hn => ?_, fun elements hkind hv => ?_⟩
    · cases hn with
      | other => exact h
      | openObject | field | undeclared | element => cases hk
    · rw [hkind, hv] at hk
      cases hk

theorem fits_leaf {header : Header} {type : Leaf} {allowed : List Json} {v : Json}
    (hk : type.kind.admits v = true) : (leaf header type allowed).Fits limits depth v := by
  refine ⟨fun n hn => ?_, fun elements hkind _ => ?_⟩
  · cases hn with
    | other hk' => exact absurd hk (Bool.eq_false_iff.mp hk')
  · cases type <;> cases hkind

theorem fits_openObject {header : Header} {members : List (String × Json)} :
    (openObject header).Fits limits depth (.object members) ↔
      depth + (Json.object members).height ≤ limits.maxDepth := by
  constructor
  · exact fun h => h.levels _ .openObject
  · intro h
    refine ⟨fun n hn => ?_, fun elements hkind _ => by cases hkind⟩
    cases hn with
    | other => exact h
    | openObject => exact h

theorem fits_object {header : Header} {properties : List (String × Schema)}
    {members : List (String × Json)} :
    (object header properties).Fits limits depth (.object members) ↔
      (∀ name child, (name, child) ∈ properties → fieldValue members name ≠ none →
        depth + 1 ≤ limits.maxDepth) ∧
      ∀ name v, (name, v) ∈ undeclared properties members →
        depth + 1 + v.height ≤ limits.maxDepth := by
  constructor
  · intro h
    refine ⟨fun name child hm hgiven => ?_, fun name v hu => ?_⟩
    · obtain ⟨v, hv⟩ := Option.ne_none_iff_exists'.mp hgiven
      exact h.levels 1 (.field hm hv)
    · have hle := h.levels _ (.undeclared hu)
      omega
  · rintro ⟨hfields, hothers⟩
    refine ⟨fun n hn => ?_, fun elements hkind _ => by cases hkind⟩
    cases hn with
    | other hk => cases hk
    | field hm hv =>
      refine hfields _ _ hm ?_
      rw [hv]
      exact Option.some_ne_none _
    | undeclared hu =>
      have hle := hothers _ _ hu
      omega

theorem fits_array {header : Header} {unique : Bool} {items : Schema} {elements : List Json} :
    (array header unique items).Fits limits depth (.array elements) ↔
      elements.length ≤ limits.maxArrayLength ∧
        ∀ v ∈ elements, depth + 1 ≤ limits.maxDepth := by
  constructor
  · intro h
    exact ⟨h.length elements rfl rfl, fun v hm => h.levels 1 (.element hm)⟩
  · rintro ⟨hl, helements⟩
    refine ⟨fun n hn => ?_, fun elements' _ he => ?_⟩
    · cases hn with
      | other hk => cases hk
      | element hm => exact helements _ hm
    · cases he
      exact hl

section Reaches

variable {p : Path → Schema → Json → Prop}

theorem forall_reaches_other {v : Json} (hk : node.kind.admits v = false) :
    (∀ path inner w, node.Reaches v path inner w → p path inner w) ↔ p [] node v := by
  constructor
  · exact fun h => h _ _ _ (.self node v)
  · intro h path inner w hr
    cases hr with
    | self => exact h
    | field | element => cases hk

theorem forall_reaches_leaf {header : Header} {type : Leaf} {allowed : List Json} {v : Json} :
    (∀ path inner w, (leaf header type allowed).Reaches v path inner w → p path inner w) ↔
      p [] (leaf header type allowed) v := by
  constructor
  · exact fun h => h _ _ _ (.self _ v)
  · intro h path inner w hr
    cases hr
    exact h

theorem forall_reaches_openObject {header : Header} {v : Json} :
    (∀ path inner w, (openObject header).Reaches v path inner w → p path inner w) ↔
      p [] (openObject header) v := by
  constructor
  · exact fun h => h _ _ _ (.self _ v)
  · intro h path inner w hr
    cases hr
    exact h

theorem forall_reaches_object {header : Header} {properties : List (String × Schema)}
    {members : List (String × Json)} :
    (∀ path inner w, (object header properties).Reaches (.object members) path inner w →
        p path inner w) ↔
      p [] (object header properties) (.object members) ∧
        ∀ name child, (name, child) ∈ properties → ∀ v,
          child.resolve (fieldValue members name) = some v →
          ∀ path inner w, child.Reaches v path inner w → p (.key name :: path) inner w := by
  constructor
  · exact fun h => ⟨h _ _ _ (.self _ _), fun name child hm v hv path inner w hr =>
      h _ _ _ (.field hm hv hr)⟩
  · rintro ⟨hself, hfields⟩ path inner w hr
    cases hr with
    | self => exact hself
    | field hm hv hr => exact hfields _ _ hm _ hv _ _ _ hr

theorem forall_reaches_array {header : Header} {unique : Bool} {items : Schema}
    {elements : List Json} :
    (∀ path inner w, (array header unique items).Reaches (.array elements) path inner w →
        p path inner w) ↔
      p [] (array header unique items) (.array elements) ∧
        ∀ i v, elements[i]? = some v →
          ∀ path inner w, items.Reaches v path inner w → p (.index i :: path) inner w := by
  constructor
  · exact fun h => ⟨h _ _ _ (.self _ _), fun i v hv path inner w hr =>
      h _ _ _ (.element hv hr)⟩
  · rintro ⟨hself, helements⟩ path inner w hr
    cases hr with
    | self => exact hself
    | element hv hr => exact helements _ _ hv _ _ _ hr

end Reaches

/-- A field meets no limit if it does not lie too deep when it is given, and what it has
or what stands in for it meets none. -/
theorem withinLimits_examineField {field : Option Json} :
    (node.examineField limits depth field).WithinLimits ↔
      (field ≠ none → depth ≤ limits.maxDepth) ∧
        ∀ v, node.resolve field = some v → (node.examine limits depth v).WithinLimits := by
  cases field with
  | some v =>
    have hgiven : (node.examineField limits depth (some v)).WithinLimits ↔
        (node.examineGiven limits depth v).WithinLimits := findsOnly_examineField_some
    rw [hgiven, withinLimits_examineGiven, resolve, Option.some_or]
    simp
  | none =>
    rw [Checked.WithinLimits, findsOnly_examineField_none, resolve, Option.none_or]
    simp [Checked.WithinLimits]

/-- Every place below one step fits exactly if every place seen from there does. -/
theorem fits_below {v : Json} {step : Step} :
    (∀ path inner w, node.Reaches v path inner w →
        inner.Fits limits (depth + (step :: path).length) w) ↔
      ∀ path inner w, node.Reaches v path inner w →
        inner.Fits limits (depth + 1 + path.length) w := by
  have hdepth : ∀ path : Path, depth + (step :: path).length = depth + 1 + path.length := by
    intro path
    rw [List.length_cons]
    omega
  simp only [hdepth]

/-- A look meets no limit exactly if every place that it reaches fits. -/
theorem withinLimits_iff_fits (depth : Nat) (v : Json) :
    (node.examine limits depth v).WithinLimits ↔
      ∀ path inner w, node.Reaches v path inner w →
        inner.Fits limits (depth + path.length) w := by
  induction node, v using inductionAlong generalizing depth with
  | other node v hk =>
    rw [forall_reaches_other hk, List.length_nil, Nat.add_zero, fits_other hk,
      examine_of_not_admits hk, ← Limits.withinLimits_carry, Checked.WithinLimits,
      Limits.findsOnly_mismatch]
    exact and_iff_right Violation.Kind.noConfusion
  | leaf header type allowed v hk =>
    rw [forall_reaches_leaf]
    exact iff_of_true (withinLimits_examine_leaf hk) (fits_leaf hk)
  | openObject header members =>
    rw [forall_reaches_openObject, List.length_nil, Nat.add_zero, fits_openObject,
      examine_openObject, Limits.withinLimits_carry]
  | object header properties members ih =>
    rw [forall_reaches_object, List.length_nil, Nat.add_zero, fits_object]
    constructor
    · intro h
      obtain ⟨hfields, hothers⟩ := findsOnly_examine_object.mp h
      have hfield := fun name child hm => withinLimits_examineField.mp (hfields name child hm)
      refine ⟨⟨fun name child hm => (hfield name child hm).1, fun name v hu => ?_⟩, ?_⟩
      · exact Limits.withinLimits_carry.mp (hothers name v hu)
      · intro name child hm v hv
        exact fits_below.mpr ((ih name child hm v (depth + 1)).mp ((hfield name child hm).2 v hv))
    · rintro ⟨⟨hgiven, hothers⟩, hfields⟩
      refine findsOnly_examine_object.mpr ⟨fun name child hm => ?_, fun name v hu => ?_⟩
      · refine withinLimits_examineField.mpr ⟨hgiven name child hm, fun v hv => ?_⟩
        exact (ih name child hm v (depth + 1)).mpr (fits_below.mp (hfields name child hm v hv))
      · exact Limits.withinLimits_carry.mpr (hothers name v hu)
  | array header unique items elements ih =>
    rw [forall_reaches_array, List.length_nil, Nat.add_zero, fits_array]
    constructor
    · intro h
      have hl := length_le_of_withinLimits h
      have helement := fun v hm =>
        withinLimits_examineGiven.mp (((findsOnly_examine_array hl).mp h).1 v hm)
      refine ⟨⟨hl, fun v hm => (helement v hm).1⟩, fun i v hv => ?_⟩
      have hm := List.mem_of_getElem? hv
      exact fits_below.mpr ((ih v (depth + 1)).mp (helement v hm).2)
    · rintro ⟨⟨hl, hdepth⟩, helements⟩
      refine (findsOnly_examine_array hl).mpr
        ⟨fun v hm => ?_, fun _ hnot => (hnot Violation.Kind.noConfusion).elim⟩
      obtain ⟨i, hi⟩ := List.getElem?_of_mem hm
      refine withinLimits_examineGiven.mpr ⟨hdepth v hm, ?_⟩
      exact (ih v (depth + 1)).mpr (fits_below.mp (helements i v hi))

end Schema

namespace Catalog

/-- The places of used defaults are exempt from the limits exactly if everything that
the defaults spell out, and that a look charges, fits where they are used. -/
theorem exempt_iff_defaults_fit {definition : Json} (hd : definition.WellKeyed)
    {catalog : Catalog} (hcatalog : Catalog.ofJson definition = .ok catalog)
    {category : Category} {typeKey : String} {node : Schema}
    (hstage : catalog.lookup category typeKey = .ok node) (limits : Limits) (candidate : Json) :
    (∀ place ∈ (node.validate limits candidate).defaulted,
      ∀ x ∈ (node.validate limits candidate).violations,
        place <+: x.path → x.kind ≠ .limitExceeded) ↔
      ∀ place ∈ (node.validate limits candidate).defaulted,
        ∀ inner v, node.at? place = some inner → inner.header.default = some v →
          ∀ path reached w, inner.Reaches v path reached w →
            reached.Fits limits (place.depth + path.depth) w := by
  have hnode := wellFormed_of_lookup hd hcatalog hstage
  -- At each place the findings are those of the default, at the depth of the place.
  refine forall₂_congr fun place hplace => ?_
  obtain ⟨inner, v, hat, hdefault, hmem⟩ := Schema.usesDefault_validate hnode hplace
  have hexempt : (∀ x ∈ (node.validate limits candidate).violations,
      place <+: x.path → x.kind ≠ .limitExceeded) ↔
      (inner.examine limits place.length v).WithinLimits := by
    rw [Nat.zero_add] at hmem
    constructor
    · intro h y hy
      exact h (y.below place) ((hmem _ (y.prefix_below place)).mpr ⟨y, hy, rfl⟩)
        (y.prefix_below place)
    · intro h x hx hbelow
      obtain ⟨y, hy, rfl⟩ := (hmem x hbelow).mp hx
      exact h y hy
  rw [hexempt, Schema.withinLimits_iff_fits]
  constructor
  · intro h inner' v' hat' hdefault'
    rw [hat] at hat'
    cases hat'
    rw [hdefault] at hdefault'
    cases hdefault'
    exact h
  · exact fun h => h inner v hat hdefault

/-- What the default spells out fits two levels below the root, where it is used. -/
theorem defaults_fit_retry :
    let report := retrySchema.validate { maxDepth := 2 } (.object [("name", .string "a")])
    report.defaulted = [[.key "retry"], [.key "retry", .key "pause"]] ∧
      ∀ place ∈ report.defaulted, ∀ inner v, retrySchema.at? place = some inner →
        inner.header.default = some v → ∀ path reached w, inner.Reaches v path reached w →
          reached.Fits { maxDepth := 2 } (place.depth + path.depth) w := by
  intro report
  refine ⟨by decide +kernel, ?_⟩
  exact (exempt_iff_defaults_fit wellKeyed_retryCatalogDefinition ofJson_retryCatalogDefinition
    (show retryCatalog.lookup .source "retry" = .ok retrySchema from rfl) { maxDepth := 2 }
    (.object [("name", .string "a")])).mp (by decide +kernel)

/-- The candidate is nested no deeper than admitted, but a field that the default spells
out is blamed for its depth. -/
theorem not_exempt_retry :
    Catalog.ofJson retryCatalogDefinition = .ok retryCatalog ∧
      retryCatalog.lookup .source "retry" = .ok retrySchema ∧
      ¬ ∀ place ∈ (retrySchema.validate { maxDepth := 1 }
          (.object [("name", .string "a")])).defaulted,
        ∀ x ∈ (retrySchema.validate { maxDepth := 1 }
            (.object [("name", .string "a")])).violations,
          place <+: x.path → x.kind ≠ .limitExceeded :=
  ⟨ofJson_retryCatalogDefinition, rfl, by decide +kernel⟩

end Catalog

end PipelineConfig
