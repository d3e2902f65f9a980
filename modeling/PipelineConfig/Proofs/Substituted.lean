import PipelineConfig.Proofs.Findings

/-!
# Where defaults are used

Every path that is recorded as defaulted leads to a node that declares a default, and
what is found there and below is what a look at that default finds, at the depth of
the path. The candidate plays no part in it.
-/

namespace PipelineConfig

namespace Violation

/-- The same difference, seen from the start of a path that leads to where it was seen. -/
def below (path : Path) (x : Violation) : Violation := { x with path := path ++ x.path }

@[simp] theorem kind_below (path : Path) (x : Violation) : (x.below path).kind = x.kind := rfl

theorem under_below (step : Step) (path : Path) (x : Violation) :
    (x.below path).under step = x.below (step :: path) := rfl

theorem below_under (path : Path) (step : Step) (x : Violation) :
    (x.under step).below path = x.below (path ++ [step]) := by
  rw [below, below, List.append_assoc]
  rfl

theorem prefix_below (path : Path) (x : Violation) : path <+: (x.below path).path :=
  List.prefix_append path x.path

end Violation

namespace Schema

/-- The path leads to a node with a default, and what is found at the path and below
is what is found in that default. -/
def UsesDefault (limits : Limits) (node : Schema) (depth : Nat) (found : List Violation)
    (path : Path) : Prop :=
  ∃ inner v, node.at? path = some inner ∧ inner.header.default = some v ∧
    ∀ x, path <+: x.path →
      (x ∈ found ↔
        ∃ y ∈ (inner.examine limits (depth + path.length) v).violations, x = y.below path)

variable {limits : Limits} {depth : Nat} {node : Schema}

/-- Below a declared field an object is blamed for that field alone. -/
theorem mem_violations_object {header : Header} {properties : List (String × Schema)}
    {members : List (String × Json)} (hd : (properties.map Prod.fst).Nodup) {name : String}
    (hm : (name, node) ∈ properties) {x : Violation} {rest : Path}
    (hx : x.path = .key name :: rest) :
    x ∈ ((object header properties).examine limits depth (.object members)).violations ↔
      ∃ y ∈ (node.examineField limits (depth + 1) (fieldValue members name)).violations,
        x = y.under (.key name) := by
  rw [violations_examine_object, List.mem_append, List.mem_flatMap, List.mem_flatMap]
  constructor
  · rintro (⟨⟨key, other⟩, hp, hin⟩ | ⟨⟨key, v⟩, hu, hin⟩)
    · obtain ⟨y, hy, rfl⟩ := List.mem_map.mp hin
      have hkey : key = name := Step.key.inj (List.cons.inj hx).1
      subst hkey
      have hother : other = node := Members.eq_of_mem hd hp hm
      subst hother
      exact ⟨y, hy, rfl⟩
    · obtain ⟨y, -, rfl⟩ := List.mem_map.mp hin
      have hkey : key = name := Step.key.inj (List.cons.inj hx).1
      subst hkey
      exact absurd (Members.mem_keys hm) (mem_undeclared.mp hu).2
  · rintro ⟨y, hy, rfl⟩
    exact .inl ⟨(name, node), hm, List.mem_map_of_mem hy⟩

/-- Further in than an element itself an array is blamed for that element alone. -/
theorem mem_violations_array {header : Header} {unique : Bool} {elements : List Json}
    (hl : elements.length ≤ limits.maxArrayLength) {i : Nat} {v : Json}
    (hv : elements[i]? = some v) {x : Violation} {step : Step} {rest : Path}
    (hx : x.path = .index i :: step :: rest) :
    x ∈ ((array header unique node).examine limits depth (.array elements)).violations ↔
      ∃ y ∈ (node.examineGiven limits (depth + 1) v).violations, x = y.under (.index i) := by
  rw [violations_examine_array hl, List.mem_append, List.mem_flatMap]
  constructor
  · rintro (⟨⟨w, j⟩, hm, hin⟩ | hin)
    · obtain ⟨y, hy, rfl⟩ := List.mem_map.mp hin
      have hindex : j = i := Step.index.inj (List.cons.inj hx).1
      subst hindex
      have hw : elements[j]? = some w := List.mem_zipIdx_iff_getElem?.mp hm
      rw [hv] at hw
      cases hw
      exact ⟨y, hy, rfl⟩
    · cases unique with
      | false => cases hin
      | true =>
        rw [if_pos rfl, duplicates_eq_map_repeats] at hin
        obtain ⟨r, -, rfl⟩ := List.mem_map.mp hin
        cases hx
  · rintro ⟨y, hy, rfl⟩
    have hm : (v, i) ∈ elements.zipIdx := List.mem_zipIdx_iff_getElem?.mpr hv
    exact .inl ⟨(v, i), hm, List.mem_map_of_mem hy⟩

/-- What holds of a path one step further in holds of the whole path, if below the
step the findings are those further in. -/
theorem UsesDefault.step {outer : Schema} {found further : List Violation} {step : Step}
    {path : Path} (h : node.UsesDefault limits (depth + 1) further path)
    (hat : outer.at? (step :: path) = node.at? path)
    (hfound : ∀ x rest, x.path = step :: rest → path <+: rest →
      (x ∈ found ↔ ∃ y ∈ further, x = y.under step)) :
    outer.UsesDefault limits depth found (step :: path) := by
  obtain ⟨inner, v, hinner, hdefault, hmem⟩ := h
  refine ⟨inner, v, hat.trans hinner, hdefault, fun x hx => ?_⟩
  obtain ⟨rest, hpath, hprefix⟩ := List.cons_prefix_iff.mp hx
  have hdepth : depth + (step :: path).length = depth + 1 + path.length := by
    rw [List.length_cons]
    omega
  rw [hfound x rest hpath hprefix, hdepth]
  constructor
  · rintro ⟨y, hy, rfl⟩
    have hrest : y.path = rest := (List.cons.inj hpath).2
    obtain ⟨z, hz, rfl⟩ := (hmem y (hrest ▸ hprefix)).mp hy
    exact ⟨z, hz, Violation.under_below step path z⟩
  · rintro ⟨z, hz, rfl⟩
    exact ⟨z.below path, (hmem _ (z.prefix_below path)).mpr ⟨z, hz, rfl⟩, rfl⟩

/-- A field left out uses its own default, or further in those of the fields below. -/
theorem usesDefault_field {field : Option Json} {path : Path}
    (h : ∀ v, path ∈ (node.examine limits depth v).defaulted →
      node.UsesDefault limits depth (node.examine limits depth v).violations path)
    (hpath : path ∈ (node.examineField limits depth field).defaulted) :
    node.UsesDefault limits depth (node.examineField limits depth field).violations path := by
  cases field with
  | some v =>
    rw [examineField_some] at hpath ⊢
    by_cases hd : depth ≤ limits.maxDepth
    · rw [examineGiven_of_le hd] at hpath ⊢
      exact h v hpath
    · rw [examineGiven_of_lt (Nat.not_le.mp hd)] at hpath
      cases hpath
  | none =>
    cases hs : node.substitute with
    | default v =>
      rw [examineField_default hs] at hpath ⊢
      rcases List.mem_cons.mp hpath with rfl | hpath
      · refine ⟨node, v, ?_, substitute_eq_default_iff.mp hs, fun x _ => ?_⟩
        · cases node <;> rfl
        · constructor
          · exact fun hx => ⟨x, hx, rfl⟩
          · rintro ⟨y, hy, rfl⟩
            exact hy
      · exact h v hpath
    | missing =>
      rw [examineField_missing hs] at hpath
      cases hpath
    | empty v =>
      rw [examineField_empty hs] at hpath ⊢
      exact h v hpath
    | nothing =>
      rw [examineField_nothing hs] at hpath
      cases hpath

/-- Every path of a used default, which a look at a value records below that value,
leads to that default. -/
theorem usesDefault_of_mem_defaulted (hn : node.WellFormed) {v : Json} {path : Path}
    (h : path ∈ (node.examine limits depth v).defaulted) :
    path ≠ [] ∧ node.UsesDefault limits depth (node.examine limits depth v).violations path := by
  induction node, v using inductionAlong generalizing depth path with
  | other node v hk =>
    rw [examine_of_not_admits hk, Limits.defaulted_mismatch] at h
    cases h
  | leaf header type allowed v hk =>
    rw [examine_leaf hk] at h
    cases h
  | openObject header members =>
    rw [examine_openObject, Limits.defaulted_carry] at h
    cases h
  | object header properties members ih =>
    cases hn with
    | object _ hd hp =>
      rw [defaulted_examine_object] at h
      obtain ⟨⟨name, node⟩, hm, hin⟩ := List.mem_flatMap.mp h
      obtain ⟨rest, hrest, rfl⟩ := List.mem_map.mp hin
      refine ⟨List.cons_ne_nil _ _, ?_⟩
      have hfield := usesDefault_field
        (fun v hv => (ih name node hm v (hp name node hm) hv).2) hrest
      refine hfield.step ?_ fun x _ hx _ => mem_violations_object hd hm hx
      rw [at?, Members.lookup_of_mem hd hm, Option.bind_some]
  | array header unique items elements ih =>
    cases hn with
    | array _ hi =>
      by_cases hl : elements.length ≤ limits.maxArrayLength
      · rw [defaulted_examine_array hl] at h
        obtain ⟨⟨v, i⟩, hm, hin⟩ := List.mem_flatMap.mp h
        obtain ⟨rest, hrest, rfl⟩ := List.mem_map.mp hin
        refine ⟨List.cons_ne_nil _ _, ?_⟩
        by_cases hd : depth + 1 ≤ limits.maxDepth
        · rw [examineGiven_of_le hd] at hrest
          obtain ⟨hne, huses⟩ := ih v hi hrest
          -- Duplicates are blamed at elements, and a used default lies further in.
          refine huses.step rfl fun x below hx hprefix => ?_
          have hv : elements[i]? = some v := List.mem_zipIdx_iff_getElem?.mp hm
          obtain ⟨step, tail, rfl⟩ := List.exists_cons_of_ne_nil hne
          obtain ⟨more, rfl, -⟩ := List.cons_prefix_iff.mp hprefix
          rw [← examineGiven_of_le hd]
          exact mem_violations_array hl hv hx
        · rw [examineGiven_of_lt (Nat.not_le.mp hd)] at hrest
          cases hrest
      · rw [examine_array_of_lt (Nat.not_le.mp hl)] at h
        cases h

/-- Every path that a validation reports as defaulted leads to a used default. -/
theorem usesDefault_validate (hn : node.WellFormed) {candidate : Json} {path : Path}
    (h : path ∈ (node.validate limits candidate).defaulted) :
    node.UsesDefault limits 0 (node.validate limits candidate).violations path := by
  rw [validate_eq] at h ⊢
  exact usesDefault_field (fun v hv => (usesDefault_of_mem_defaulted hn hv).2) h

end Schema

end PipelineConfig
