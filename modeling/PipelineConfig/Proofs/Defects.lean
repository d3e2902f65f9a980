import PipelineConfig.Proofs.Findings

/-!
# Violations are the defects of what is left behind

Where a value differs from its schema can be said without any walk: the schema and
the value are descended together, and every place has its own defects. The main
statement is that a validation that meets no limit finds exactly the defects of the
value that it leaves behind, and each of them once.
-/

namespace PipelineConfig

/-- The place of a violation and its kind. -/
def Violation.site (x : Violation) : Path × Violation.Kind := (x.path, x.kind)

/-- The value differs from the schema at the given place in the given way. -/
inductive Schema.Defect : Schema → Json → Path → Violation.Kind → Prop where
  /-- The value is of another kind than its node. -/
  | mismatch {node : Schema} {v : Json} : node.kind.admits v = false →
      Defect node v [] .typeMismatch
  /-- A leaf lists values, and none of them is the value. -/
  | notInEnum {header : Header} {type : Leaf} {allowed : List Json} {v : Json} :
      type.kind.admits v = true → allowed ≠ [] → (∀ a ∈ allowed, a.same v = false) →
      Defect (.leaf header type allowed) v [] .valueNotInEnum
  /-- A number is below the minimum. -/
  | belowMinimum {header : Header} {type : Leaf} {allowed : List Json} {n least : Number} :
      type.kind.admits (.number n) = true → type.bounds.minimum = some least →
      n.order < least.order → Defect (.leaf header type allowed) (.number n) [] .outOfRange
  /-- A number is above the maximum. -/
  | aboveMaximum {header : Header} {type : Leaf} {allowed : List Json} {n greatest : Number} :
      type.kind.admits (.number n) = true → type.bounds.maximum = some greatest →
      greatest.order < n.order → Defect (.leaf header type allowed) (.number n) [] .outOfRange
  /-- An object lacks a required field. -/
  | missing {header : Header} {properties : List (String × Schema)}
      {members : List (String × Json)} {name : String} {node : Schema} :
      (name, node) ∈ properties → node.header.required = true → members.lookup name = none →
      Defect (.object header properties) (.object members) [.key name] .missingRequiredField
  /-- An element repeats an earlier one of an array whose elements are distinct. -/
  | duplicate {header : Header} {items : Schema} {elements : List Json} {i j : Nat} {u v : Json} :
      j < i → elements[j]? = some u → elements[i]? = some v → u.same v = true →
      Defect (.array header true items) (.array elements) [.index i] .duplicateItem
  /-- A declared field that the object has differs from its own node. -/
  | field {header : Header} {properties : List (String × Schema)}
      {members : List (String × Json)} {name : String} {node : Schema} {v : Json} {path : Path}
      {kind : Violation.Kind} : (name, node) ∈ properties → members.lookup name = some v →
      Defect node v path kind →
      Defect (.object header properties) (.object members) (.key name :: path) kind
  /-- An element differs from the elements' node. -/
  | element {header : Header} {unique : Bool} {items : Schema} {elements : List Json} {i : Nat}
      {v : Json} {path : Path} {kind : Violation.Kind} : elements[i]? = some v →
      Defect items v path kind →
      Defect (.array header unique items) (.array elements) (.index i :: path) kind

section Sites

theorem sites_under (step : Step) (found : List Violation) :
    (found.map (Violation.under step)).map Violation.site =
      (found.map Violation.site).map (Prod.map (step :: ·) id) := by
  rw [List.map_map, List.map_map]
  rfl

theorem mem_sites_under {step : Step} {found : List (Path × Violation.Kind)} {path : Path}
    {kind : Violation.Kind} :
    (path, kind) ∈ found.map (Prod.map (step :: ·) id) ↔
      ∃ rest, path = step :: rest ∧ (rest, kind) ∈ found := by
  constructor
  · intro h
    obtain ⟨⟨rest, kind'⟩, hm, he⟩ := List.mem_map.mp h
    cases he
    exact ⟨rest, rfl, hm⟩
  · rintro ⟨rest, rfl, hm⟩
    exact List.mem_map.mpr ⟨(rest, kind), hm, rfl⟩

/-- Sites seen from further out tell the step and the sites further in. -/
theorem under_sites_injective (s t : Step) (a b : Path × Violation.Kind)
    (h : Prod.map (s :: ·) id a = Prod.map (t :: ·) id b) : s = t ∧ a = b := by
  obtain ⟨hpath, hkind⟩ := Prod.mk.inj h
  obtain ⟨hstep, hrest⟩ := List.cons.inj hpath
  exact ⟨hstep, Prod.ext hrest hkind⟩

/-- An element is a duplicate exactly if it is the same as some earlier one. -/
theorem mem_sites_duplicates {elements : List Json} {path : Path} {kind : Violation.Kind} :
    (path, kind) ∈ (duplicates elements).map Violation.site ↔
      kind = .duplicateItem ∧ ∃ i j u v, path = [.index i] ∧ j < i ∧ elements[j]? = some u ∧
        elements[i]? = some v ∧ u.same v = true := by
  rw [duplicates_eq_map_repeats, List.map_map]
  constructor
  · intro h
    obtain ⟨r, hm, he⟩ := List.mem_map.mp h
    cases he
    obtain ⟨j, u, v, hs⟩ := mem_keys_repeats_iff.mp (List.mem_map_of_mem hm)
    exact ⟨rfl, r.1, j, u, v, rfl, hs⟩
  · rintro ⟨rfl, i, j, u, v, rfl, hs⟩
    obtain ⟨r, hm, rfl⟩ := List.mem_map.mp (mem_keys_repeats_iff.mpr ⟨j, u, v, hs⟩)
    exact List.mem_map.mpr ⟨r, hm, rfl⟩

theorem nodup_sites_duplicates (elements : List Json) :
    ((duplicates elements).map Violation.site).Nodup := by
  rw [duplicates_eq_map_repeats, List.map_map, List.Nodup, List.pairwise_map]
  refine (pairwise_repeats elements).imp fun hlt he => ?_
  have hpath := congrArg Prod.fst he
  exact Nat.ne_of_lt hlt (Step.index.inj (List.cons.inj hpath).1)

end Sites

/-- The violations are the defects of the value, each found once. -/
structure Checked.Explains (c : Checked Json) (node : Schema) : Prop where
  /-- No site is blamed twice. -/
  nodup : (c.violations.map Violation.site).Nodup
  /-- A site is blamed exactly if it is a defect. -/
  mem_iff : ∀ path kind,
    (path, kind) ∈ c.violations.map Violation.site ↔ node.Defect c.value path kind

namespace Schema

variable {limits : Limits} {node : Schema}

theorem Defect.not_duplicate_at_root {v : Json} (h : node.Defect v [] .duplicateItem) : False := by
  cases h

/-- A value of another kind has that one defect. -/
theorem defect_iff_of_not_admits {v : Json} (hk : node.kind.admits v = false) {path : Path}
    {kind : Violation.Kind} :
    node.Defect v path kind ↔ path = [] ∧ kind = .typeMismatch := by
  constructor
  · intro h
    cases h with
    | mismatch => exact ⟨rfl, rfl⟩
    | notInEnum hk' | belowMinimum hk' | aboveMaximum hk' =>
      exact absurd hk' (Bool.eq_false_iff.mp hk)
    | missing | duplicate | field | element => cases hk
  · rintro ⟨rfl, rfl⟩
    exact .mismatch hk

theorem explains_of_not_admits {depth : Nat} {v : Json} (hk : node.kind.admits v = false)
    (hw : (node.examine limits depth v).WithinLimits) :
    (node.examine limits depth v).Explains node := by
  have hcarry : (limits.carry depth v).violations = [] := by
    rw [examine_of_not_admits hk] at hw
    exact Limits.violations_carry_of_within (Limits.findsOnly_mismatch.mp hw).2
  have hsites : (node.examine limits depth v).violations.map Violation.site =
      [([], .typeMismatch)] := by
    rw [examine_of_not_admits hk, Limits.violations_mismatch, hcarry]
    rfl
  refine ⟨by rw [hsites]; exact List.nodup_singleton _, fun path kind => ?_⟩
  rw [hsites, List.mem_singleton, Prod.mk.injEq]
  rw [examine_of_not_admits hk, Limits.value_mismatch, defect_iff_of_not_admits hk]

theorem mem_sites_notAllowed {allowed : List Json} {v : Json} {path : Path}
    {kind : Violation.Kind} :
    (path, kind) ∈ (notAllowed allowed v).map Violation.site ↔
      (path = [] ∧ kind = .valueNotInEnum) ∧ allowed ≠ [] ∧ ∀ a ∈ allowed, a.same v = false := by
  unfold notAllowed
  split
  · next h =>
    rw [Bool.or_eq_true, List.isEmpty_iff, List.any_eq_true] at h
    simp only [List.map_nil, List.not_mem_nil, false_iff, not_and]
    rintro - hne hall
    rcases h with h | ⟨a, ha, hsame⟩
    · exact hne h
    · rw [hall a ha] at hsame
      cases hsame
  · next h =>
    rw [Bool.or_eq_true, List.isEmpty_iff, List.any_eq_true, not_or] at h
    have hall : ∀ a ∈ allowed, a.same v = false := fun a ha =>
      Bool.eq_false_iff.mpr fun hsame => h.2 ⟨a, ha, hsame⟩
    simp only [List.map_cons, List.map_nil, List.mem_singleton]
    constructor
    · intro he
      cases he
      exact ⟨⟨rfl, rfl⟩, h.1, hall⟩
    · rintro ⟨⟨rfl, rfl⟩, -⟩
      rfl

theorem mem_sites_outOfBounds {bounds : Bounds} {v : Json} {path : Path}
    {kind : Violation.Kind} :
    (path, kind) ∈ (outOfBounds bounds v).map Violation.site ↔
      (path = [] ∧ kind = .outOfRange) ∧ ∃ n, v = .number n ∧
        ((∃ least, bounds.minimum = some least ∧ n.order < least.order) ∨
          ∃ greatest, bounds.maximum = some greatest ∧ greatest.order < n.order) := by
  cases v with
  | number n =>
    obtain ⟨minimum, maximum⟩ := bounds
    rw [outOfBounds, List.map_append, List.mem_append]
    constructor
    · rintro (h | h)
      · cases minimum with
        | none => cases h
        | some least =>
          by_cases hlt : n.order < least.order
          · simp only [if_pos hlt] at h
            cases List.mem_singleton.mp h
            exact ⟨⟨rfl, rfl⟩, n, rfl, .inl ⟨least, rfl, hlt⟩⟩
          · simp only [if_neg hlt] at h
            cases h
      · cases maximum with
        | none => cases h
        | some greatest =>
          by_cases hlt : greatest.order < n.order
          · simp only [if_pos hlt] at h
            cases List.mem_singleton.mp h
            exact ⟨⟨rfl, rfl⟩, n, rfl, .inr ⟨greatest, rfl, hlt⟩⟩
          · simp only [if_neg hlt] at h
            cases h
    · rintro ⟨⟨rfl, rfl⟩, m, he, ⟨least, rfl, hlt⟩ | ⟨greatest, rfl, hlt⟩⟩
      · cases he
        left
        simp only [if_pos hlt]
        exact List.mem_singleton_self _
      · cases he
        right
        simp only [if_pos hlt]
        exact List.mem_singleton_self _
  | null | bool | string | array | object =>
    constructor
    · intro h
      cases h
    · rintro ⟨-, n, he, -⟩
      cases he

/-- Bounds in order are not both missed. -/
theorem length_outOfBounds {bounds : Bounds} (hb : bounds.inverted = false) (v : Json) :
    (outOfBounds bounds v).length ≤ 1 := by
  cases v with
  | number n =>
    obtain ⟨minimum, maximum⟩ := bounds
    cases minimum with
    | none =>
      cases maximum with
      | none => exact Nat.zero_le 1
      | some greatest =>
        simp only [outOfBounds]
        split <;> simp
    | some least =>
      cases maximum with
      | none =>
        simp only [outOfBounds]
        split <;> simp
      | some greatest =>
        have hle : least.order ≤ greatest.order := by
          simpa [Bounds.inverted] using hb
        simp only [outOfBounds]
        by_cases hlow : n.order < least.order
        · have hhigh : ¬ greatest.order < n.order := by omega
          simp [if_pos hlow, if_neg hhigh]
        · simp only [if_neg hlow]
          split <;> simp
  | null | bool | string | array | object => exact Nat.zero_le 1

theorem explains_leaf {header : Header} {type : Leaf} {allowed : List Json}
    (hb : type.bounds.inverted = false) {depth : Nat} {v : Json}
    (hk : type.kind.admits v = true) :
    ((leaf header type allowed).examine limits depth v).Explains (leaf header type allowed) := by
  rw [examine_leaf hk]
  refine ⟨?_, fun path kind => ?_⟩
  · rw [List.map_append, List.nodup_append]
    refine ⟨?_, ?_, ?_⟩
    · unfold notAllowed
      split
      · exact List.nodup_nil
      · exact List.nodup_singleton _
    · have hlen := length_outOfBounds hb v
      match hfound : outOfBounds type.bounds v with
      | [] => exact List.nodup_nil
      | [x] => exact List.nodup_singleton _
      | _ :: _ :: _ =>
        rw [hfound] at hlen
        simp at hlen
    · rintro ⟨path, kind⟩ hs ⟨path', kind'⟩ ht he
      cases he
      have hs' := (mem_sites_notAllowed.mp hs).1.2
      have ht' := (mem_sites_outOfBounds.mp ht).1.2
      rw [hs'] at ht'
      cases ht'
  · rw [List.map_append, List.mem_append, mem_sites_notAllowed, mem_sites_outOfBounds]
    constructor
    · rintro (⟨⟨rfl, rfl⟩, hne, hall⟩ | ⟨⟨rfl, rfl⟩, n, rfl, hbound⟩)
      · exact .notInEnum hk hne hall
      · rcases hbound with ⟨least, hm, hlt⟩ | ⟨greatest, hm, hlt⟩
        · exact .belowMinimum hk hm hlt
        · exact .aboveMaximum hk hm hlt
    · intro h
      cases h with
      | mismatch hk' => exact absurd hk (Bool.eq_false_iff.mp hk')
      | notInEnum _ hne hall => exact .inl ⟨⟨rfl, rfl⟩, hne, hall⟩
      | belowMinimum _ hm hlt => exact .inr ⟨⟨rfl, rfl⟩, _, rfl, .inl ⟨_, hm, hlt⟩⟩
      | aboveMaximum _ hm hlt => exact .inr ⟨⟨rfl, rfl⟩, _, rfl, .inr ⟨_, hm, hlt⟩⟩

/-- What is found at a field: the defects of what it becomes, or that it is missing. -/
structure ExplainsField (c : Checked (Option Json)) (node : Schema) : Prop where
  /-- No site is blamed twice. -/
  nodup : (c.violations.map Violation.site).Nodup
  /-- A site is blamed exactly if it is a defect, or if nothing stands there. -/
  mem_iff : ∀ path kind, (path, kind) ∈ c.violations.map Violation.site ↔
    (∃ v, c.value = some v ∧ node.Defect v path kind) ∨
      (c.value = none ∧ node.header.required = true ∧ path = [] ∧ kind = .missingRequiredField)

theorem explainsField_some {c : Checked Json} (h : c.Explains node) (defaulted : List Path) :
    ExplainsField ⟨some c.value, c.violations, defaulted⟩ node := by
  refine ⟨h.nodup, fun path kind => ?_⟩
  rw [h.mem_iff]
  simp

theorem explains_field {depth : Nat} {field : Option Json}
    (h : ∀ v, (node.examine limits depth v).WithinLimits →
      (node.examine limits depth v).Explains node)
    (hw : (node.examineField limits depth field).WithinLimits) :
    ExplainsField (node.examineField limits depth field) node := by
  cases field with
  | some v =>
    obtain ⟨hd, hv⟩ := withinLimits_examineGiven.mp (findsOnly_examineField_some.mp hw)
    rw [examineField_some, examineGiven_of_le hd]
    exact explainsField_some (h v hv) _
  | none =>
    cases hs : node.substitute with
    | default v =>
      rw [examineField_default hs] at hw ⊢
      exact explainsField_some (h v hw) _
    | empty v =>
      rw [examineField_empty hs] at hw ⊢
      exact explainsField_some (h v hw) _
    | missing =>
      obtain ⟨-, hrequired⟩ := substitute_eq_missing_iff.mp hs
      rw [examineField_missing hs]
      refine ⟨List.nodup_singleton _, fun path kind => ?_⟩
      simp [hrequired, Violation.site, Violation.missingField, Path.root]
    | nothing =>
      have hrequired := required_of_substitute_nothing hs
      rw [examineField_nothing hs]
      refine ⟨List.nodup_nil, fun path kind => ?_⟩
      simp [hrequired]

theorem explains_object {header : Header} {properties : List (String × Schema)}
    (hd : (properties.map Prod.fst).Nodup) {depth : Nat} {members : List (String × Json)}
    (hp : ∀ name node, (name, node) ∈ properties → ∀ v,
      (node.examine limits (depth + 1) v).WithinLimits →
      (node.examine limits (depth + 1) v).Explains node)
    (hw : ((object header properties).examine limits depth (.object members)).WithinLimits) :
    ((object header properties).examine limits depth (.object members)).Explains
      (object header properties) := by
  let look := fun name (node : Schema) =>
    node.examineField limits (depth + 1) (fieldValue members name)
  let sites := fun p : String × Schema => (look p.1 p.2).violations.map Violation.site
  have hviolations := violations_examine_object limits properties depth members header
  obtain ⟨hfields, hothers⟩ := findsOnly_examine_object.mp hw
  have hfield : ∀ name node, (name, node) ∈ properties →
      ExplainsField (look name node) node := fun name node hm =>
    explains_field (hp name node hm) (hfields name node hm)
  have hcarried : ((undeclared properties members).flatMap fun m =>
      (limits.carry (depth + 1) m.2).violations.map (Violation.under (.key m.1))) = [] := by
    refine List.flatMap_eq_nil_iff.mpr fun m hm => ?_
    rw [Limits.violations_carry_of_within (hothers m.1 m.2 hm), List.map_nil]
  have hsites : ((object header properties).examine limits depth
      (.object members)).violations.map Violation.site =
      properties.flatMap fun p => (sites p).map (Prod.map (.key p.1 :: ·) id) := by
    rw [hviolations, hcarried, List.append_nil, List.map_flatMap]
    exact List.flatMap_congr fun p _ => sites_under (.key p.1) (look p.1 p.2).violations
  have hlookup : ∀ name node, (name, node) ∈ properties →
      (replaceDeclared (fun name node => (look name node).value) properties members).lookup name =
        (look name node).value := fun name node hm => lookup_replaceDeclared hd hm
  refine ⟨?_, fun path kind => ?_⟩
  · rw [hsites]
    exact nodup_flatMap_under (nodup_keySteps hd) under_sites_injective
      fun p hm => (hfield p.1 p.2 hm).nodup
  · rw [hsites, List.mem_flatMap, value_examine_object]
    constructor
    · rintro ⟨⟨name, node⟩, hm, hin⟩
      obtain ⟨rest, rfl, hfound⟩ := mem_sites_under.mp hin
      rcases ((hfield name node hm).mem_iff rest kind).mp hfound with
        ⟨v, hv, hdefect⟩ | ⟨hv, hrequired, rfl, rfl⟩
      · exact .field hm ((hlookup name node hm).trans hv) hdefect
      · exact .missing hm hrequired ((hlookup name node hm).trans hv)
    · intro h
      cases h with
      | mismatch hk => cases hk
      | missing hm hrequired hl =>
        refine ⟨_, hm, mem_sites_under.mpr ⟨[], rfl, ?_⟩⟩
        refine ((hfield _ _ hm).mem_iff _ _).mpr (.inr ⟨?_, hrequired, rfl, rfl⟩)
        exact (hlookup _ _ hm).symm.trans hl
      | field hm hl hdefect =>
        refine ⟨_, hm, mem_sites_under.mpr ⟨_, rfl, ?_⟩⟩
        refine ((hfield _ _ hm).mem_iff _ _).mpr (.inl ⟨_, ?_, hdefect⟩)
        exact (hlookup _ _ hm).symm.trans hl

theorem explains_array {header : Header} {unique : Bool} {items : Schema} {depth : Nat}
    {elements : List Json} (hl : elements.length ≤ limits.maxArrayLength)
    (hi : ∀ v, (items.examine limits (depth + 1) v).WithinLimits →
      (items.examine limits (depth + 1) v).Explains items)
    (hw : ((array header unique items).examine limits depth (.array elements)).WithinLimits) :
    ((array header unique items).examine limits depth (.array elements)).Explains
      (array header unique items) := by
  let look := items.examineGiven limits (depth + 1)
  let replaced := elements.map fun v => (look v).value
  let sites := fun p : Json × Nat => (look p.1).violations.map Violation.site
  have hviolations :
      ((array header unique items).examine limits depth (.array elements)).violations =
        (elements.zipIdx.flatMap fun p =>
          (look p.1).violations.map (Violation.under (.index p.2))) ++
        if unique then duplicates replaced else [] := violations_examine_array hl
  have helement : ∀ p ∈ elements.zipIdx, (look p.1).Explains items := by
    intro p hm
    have hmem : p.1 ∈ elements := List.fst_mem_of_mem_zipIdx hm
    obtain ⟨hd, hv⟩ :=
      withinLimits_examineGiven.mp (((findsOnly_examine_array hl).mp hw).1 p.1 hmem)
    have hlook : look p.1 = items.examine limits (depth + 1) p.1 := examineGiven_of_le hd
    rw [hlook]
    exact hi p.1 hv
  have hsites : ((array header unique items).examine limits depth
      (.array elements)).violations.map Violation.site =
      (elements.zipIdx.flatMap fun p => (sites p).map (Prod.map (.index p.2 :: ·) id)) ++
        if unique then (duplicates replaced).map Violation.site else [] := by
    rw [hviolations, List.map_append, List.map_flatMap]
    congr 1
    · exact List.flatMap_congr fun p _ => sites_under (.index p.2) (look p.1).violations
    · cases unique <;> rfl
  have hreplaced : ∀ {i : Nat} {w : Json}, replaced[i]? = some w ↔
      ∃ v, elements[i]? = some v ∧ (look v).value = w := by
    intro i w
    rw [List.getElem?_map, Option.map_eq_some_iff]
  refine ⟨?_, fun path kind => ?_⟩
  · rw [hsites, List.nodup_append]
    refine ⟨?_, ?_, ?_⟩
    · exact nodup_flatMap_under (nodup_indexSteps elements) under_sites_injective
        fun p hm => (helement p hm).nodup
    · cases unique with
      | false => exact List.nodup_nil
      | true => exact nodup_sites_duplicates replaced
    · rintro ⟨path, kind⟩ hs t ht rfl
      cases unique with
      | false => cases ht
      | true =>
        obtain ⟨rfl, i, _, _, _, rfl, -⟩ := mem_sites_duplicates.mp ht
        obtain ⟨p, hm, hin⟩ := List.mem_flatMap.mp hs
        obtain ⟨rest, he, hfound⟩ := mem_sites_under.mp hin
        cases he
        exact (((helement p hm).mem_iff _ _).mp hfound).not_duplicate_at_root
  · rw [hsites, List.mem_append, List.mem_flatMap, value_examine_array hl]
    constructor
    · rintro (⟨⟨v, i⟩, hm, hin⟩ | hin)
      · obtain ⟨rest, rfl, hfound⟩ := mem_sites_under.mp hin
        have hv : elements[i]? = some v := List.mem_zipIdx_iff_getElem?.mp hm
        exact .element (hreplaced.mpr ⟨v, hv, rfl⟩) (((helement (v, i) hm).mem_iff _ _).mp hfound)
      · cases unique with
        | false => cases hin
        | true =>
          obtain ⟨rfl, i, j, u, v, rfl, hji, hu, hv, hsame⟩ := mem_sites_duplicates.mp hin
          exact .duplicate hji hu hv hsame
    · intro h
      cases h with
      | mismatch hk => cases hk
      | duplicate hji hu hv hsame =>
        right
        exact mem_sites_duplicates.mpr ⟨rfl, _, _, _, _, rfl, hji, hu, hv, hsame⟩
      | element hv hdefect =>
        left
        obtain ⟨v, hin, rfl⟩ := hreplaced.mp hv
        have hm : (v, _) ∈ elements.zipIdx := List.mem_zipIdx_iff_getElem?.mpr hin
        refine ⟨(v, _), hm, mem_sites_under.mpr ⟨_, rfl, ?_⟩⟩
        exact ((helement (v, _) hm).mem_iff _ _).mpr hdefect

theorem explains_openObject {header : Header} {depth : Nat} {members : List (String × Json)}
    (hw : ((openObject header).examine limits depth (.object members)).WithinLimits) :
    ((openObject header).examine limits depth (.object members)).Explains
      (openObject header) := by
  rw [examine_openObject] at hw ⊢
  have hnone := Limits.violations_carry_of_within hw
  refine ⟨by rw [hnone]; exact List.nodup_nil, fun path kind => ?_⟩
  rw [hnone, Limits.value_carry]
  constructor
  · intro h
    cases h
  · intro h
    cases h with
    | mismatch hk => cases hk

/-- Every look that meets no limit finds the defects of what it leaves, each once. -/
theorem explains_examine (hn : node.WellFormed) (depth : Nat) (v : Json)
    (hw : (node.examine limits depth v).WithinLimits) :
    (node.examine limits depth v).Explains node := by
  induction node, v using inductionAlong generalizing depth with
  | other node v hk => exact explains_of_not_admits hk hw
  | leaf header type allowed v hk =>
    cases hn with
    | leaf _ hb => exact explains_leaf hb hk
  | openObject header members => exact explains_openObject hw
  | object header properties members ih =>
    cases hn with
    | object _ hd hp =>
      refine explains_object hd (fun name node hm v => ?_) hw
      exact ih name node hm v (hp name node hm) (depth + 1)
  | array header unique items elements ih =>
    cases hn with
    | array _ hi =>
      exact explains_array (length_le_of_withinLimits hw) (fun v => ih v hi (depth + 1)) hw

/-- A validation that meets no limit finds exactly the defects of the normalized
configuration, and blames no site twice. -/
theorem violations_iff_defect {path : String} {definition : Json} (hd : definition.WellKeyed)
    (hn : Schema.ofJson path definition = .ok node) (limits : Limits) {candidate : Json}
    (hc : candidate.isNull = false)
    (hlimits : ∀ x ∈ (node.validate limits candidate).violations, x.kind ≠ .limitExceeded) :
    ((node.validate limits candidate).violations.map fun x => (x.path, x.kind)).Nodup ∧
      ∀ place kind,
        (place, kind) ∈ (node.validate limits candidate).violations.map
            (fun x => (x.path, x.kind)) ↔
          node.Defect (node.validate limits candidate).normalized place kind := by
  rw [validate_of_not_null hc] at hlimits ⊢
  have hexplains := explains_examine (wellFormed_of_ofJson hd hn) 0 candidate hlimits
  exact ⟨hexplains.nodup, hexplains.mem_iff⟩

/-- A required name that is left out, a number of attempts below its minimum and a
tag that is no text are all that is wrong here. -/
theorem violations_iff_defect_retry :
    let candidate := Json.object [("retry", .object [("attempts", .number (.integer 0))]),
      ("tags", .array [.string "a", .bool true])]
    ((retrySchema.validate {} candidate).violations.map fun x => (x.path, x.kind)) =
        [([.key "name"], .missingRequiredField), ([.key "retry", .key "attempts"], .outOfRange),
          ([.key "tags", .index 1], .typeMismatch)] ∧
      ∀ place kind,
        (place, kind) ∈ (retrySchema.validate {} candidate).violations.map
            (fun x => (x.path, x.kind)) ↔
          retrySchema.Defect (retrySchema.validate {} candidate).normalized place kind := by
  intro candidate
  have hlimits : ∀ x ∈ (retrySchema.validate {} candidate).violations,
      x.kind ≠ .limitExceeded := by decide +kernel
  exact ⟨by decide +kernel, (violations_iff_defect wellKeyed_retryDefinition
    (ofJson_retryDefinition "retry") {} rfl hlimits).2⟩

end Schema

end PipelineConfig
