import PipelineConfig.Proofs.Filling
import PipelineConfig.Proofs.Substituted

/-!
# The nodes that a walk visits

A walk visits a node with a value if no limit stops it on the way there. What it finds at
such a visit is a block of what it finds in all, seen from the root. The values that it
visits are well keyed if the candidate and all defaults are.
-/

namespace PipelineConfig

namespace Schema

/-- A look at the first value by the first node, which stands at the given depth, visits
the second node with the second value at the end of the path. -/
inductive Visits (limits : Limits) : Schema → Nat → Json → Path → Schema → Json → Prop where
  /-- The first visit is to the node itself. -/
  | self (node : Schema) (depth : Nat) (v : Json) : Visits limits node depth v [] node v
  /-- A declared field that is given is visited unless it lies too deep. -/
  | given {header : Header} {properties : List (String × Schema)}
      {members : List (String × Json)} {name : String} {child inner : Schema} {depth : Nat}
      {v w : Json} {path : Path} : (name, child) ∈ properties →
      fieldValue members name = some v → depth + 1 ≤ limits.maxDepth →
      Visits limits child (depth + 1) v path inner w →
      Visits limits (.object header properties) depth (.object members) (.key name :: path) inner w
  /-- What stands in for a field left out is visited at any depth. -/
  | leftOut {header : Header} {properties : List (String × Schema)}
      {members : List (String × Json)} {name : String} {child inner : Schema} {depth : Nat}
      {v w : Json} {path : Path} : (name, child) ∈ properties →
      fieldValue members name = none → child.substitute.value? = some v →
      Visits limits child (depth + 1) v path inner w →
      Visits limits (.object header properties) depth (.object members) (.key name :: path) inner w
  /-- An element is visited unless it lies too deep or the array is too long. -/
  | element {header : Header} {unique : Bool} {items inner : Schema} {elements : List Json}
      {i depth : Nat} {v w : Json} {path : Path} : elements.length ≤ limits.maxArrayLength →
      elements[i]? = some v → depth + 1 ≤ limits.maxDepth →
      Visits limits items (depth + 1) v path inner w →
      Visits limits (.array header unique items) depth (.array elements) (.index i :: path) inner w

/-- A validation of the candidate visits the node with the value at the end of the path. -/
def Walks (limits : Limits) (node : Schema) (candidate : Json) (path : Path) (inner : Schema)
    (w : Json) : Prop :=
  ∃ v, node.resolve candidate.asField = some v ∧ node.Visits limits 0 v path inner w

variable {limits : Limits} {node inner : Schema} {depth : Nat} {v w candidate : Json} {path : Path}

theorem violations_examineField_none (h : node.substitute.value? = some v) :
    (node.examineField limits depth none).violations = (node.examine limits depth v).violations := by
  cases hs : node.substitute with
  | default u =>
    rw [hs] at h
    cases h
    rw [examineField_default hs]
  | empty u =>
    rw [hs] at h
    cases h
    rw [examineField_empty hs]
  | missing | nothing =>
    rw [hs] at h
    cases h

section Blocks

theorem infix_flatMap {α β : Type} {l : List α} {a : α} (h : a ∈ l) (f : α → List β) :
    f a <:+: l.flatMap f := by
  rw [List.flatMap_def]
  exact List.infix_of_mem_flatten (List.mem_map_of_mem h)

variable (limits depth) (header : Header)

/-- What is found in a declared field is a block of what is found in the object. -/
theorem infix_examineField {properties : List (String × Schema)} {members : List (String × Json)}
    {name : String} {field : Option Json} (hm : (name, node) ∈ properties)
    (hfield : fieldValue members name = field) :
    (node.examineField limits (depth + 1) field).violations.map (Violation.under (.key name)) <:+:
      ((object header properties).examine limits depth (.object members)).violations := by
  rw [violations_examine_object, ← hfield]
  exact (infix_flatMap hm fun p =>
    (p.2.examineField limits (depth + 1) (fieldValue members p.1)).violations.map
      (Violation.under (.key p.1))).trans (List.prefix_append _ _).isInfix

/-- What is found in an element is a block of what is found in the array. -/
theorem infix_examineGiven (unique : Bool) (items : Schema) {elements : List Json} {i : Nat}
    (hl : elements.length ≤ limits.maxArrayLength) (hv : elements[i]? = some v) :
    (items.examineGiven limits (depth + 1) v).violations.map (Violation.under (.index i)) <:+:
      ((array header unique items).examine limits depth (.array elements)).violations := by
  have hm : (v, i) ∈ elements.zipIdx := List.mem_zipIdx_iff_getElem?.mpr hv
  rw [violations_examine_array hl]
  exact (infix_flatMap hm fun p =>
    (items.examineGiven limits (depth + 1) p.1).violations.map
      (Violation.under (.index p.2))).trans (List.prefix_append _ _).isInfix

/-- A block of what is found one step further in is a block of what is found. -/
theorem infix_step {step : Step} {found all : List Violation}
    (h : (inner.examine limits (depth + 1 + path.length) w).violations.map
      (Violation.below path) <:+: found)
    (hfound : found.map (Violation.under step) <:+: all) :
    (inner.examine limits (depth + (step :: path).length) w).violations.map
      (Violation.below (step :: path)) <:+: all := by
  have hlength : depth + (step :: path).length = depth + 1 + path.length := by
    rw [List.length_cons]
    omega
  have hunder := h.map (Violation.under step)
  rw [List.map_map] at hunder
  rw [hlength]
  exact hunder.trans hfound

end Blocks

namespace Visits

/-- What is found at a visit is a block of what is found from the first visit on. -/
theorem infix_violations (h : node.Visits limits depth v path inner w) :
    (inner.examine limits (depth + path.length) w).violations.map (Violation.below path) <:+:
      (node.examine limits depth v).violations := by
  induction h with
  | self node depth v =>
    have hid : (node.examine limits depth v).violations.map (Violation.below []) =
        (node.examine limits depth v).violations := List.map_id'' (fun _ => rfl) _
    exact ⟨[], [], by rw [List.nil_append, List.append_nil]; exact hid⟩
  | @given header _ _ _ _ _ depth _ _ _ hm hfield hdepth _ ih =>
    have hblock := infix_examineField limits depth header hm hfield
    rw [examineField_some, examineGiven_of_le hdepth] at hblock
    exact infix_step limits depth ih hblock
  | @leftOut header _ _ _ _ _ depth _ _ _ hm hfield hs _ ih =>
    have hblock := infix_examineField limits depth header hm hfield
    rw [violations_examineField_none hs] at hblock
    exact infix_step limits depth ih hblock
  | @element header unique items _ _ _ depth _ _ _ hl hv hdepth _ ih =>
    have hblock := infix_examineGiven limits depth header unique items hl hv
    rw [examineGiven_of_le hdepth] at hblock
    exact infix_step limits depth ih hblock

/-- A visited value is well keyed, and so are the defaults below its node. -/
theorem wellKeyed (h : node.Visits limits depth v path inner w) (hn : node.WellKeyed)
    (hv : v.WellKeyed) : inner.WellKeyed ∧ w.WellKeyed := by
  induction h with
  | self => exact ⟨hn, hv⟩
  | given hm hfield _ _ ih => exact ih (hn.field hm) (hv.fieldValue hfield)
  | leftOut hm _ hs _ ih =>
    have hchild := hn.field hm
    exact ih hchild (wellKeyed_substitute hchild.header hs)
  | element _ hi _ _ ih =>
    cases hv with
    | array hvalues => exact ih hn.items (hvalues _ (List.mem_of_getElem? hi))

end Visits

namespace Walks

/-- What is found at a visit is a block of what a validation reports. -/
theorem infix_violations (h : node.Walks limits candidate path inner w) :
    (inner.examine limits path.length w).violations.map (Violation.below path) <:+:
      (node.validate limits candidate).violations := by
  obtain ⟨v, hv, hvisits⟩ := h
  have hblock := hvisits.infix_violations
  have hroot : (node.validate limits candidate).violations =
      (node.examine limits 0 v).violations := by
    rw [validate_eq]
    cases hc : candidate.asField with
    | some u =>
      rw [hc] at hv
      cases hv
      rw [examineField_some, examineGiven_of_le (Nat.zero_le _)]
    | none =>
      rw [hc, resolve, Option.none_or] at hv
      exact violations_examineField_none hv
  rwa [hroot, ← Nat.zero_add path.length]

theorem wellKeyed (h : node.Walks limits candidate path inner w) (hn : node.WellKeyed)
    (hc : candidate.WellKeyed) : inner.WellKeyed ∧ w.WellKeyed := by
  obtain ⟨v, hv, hvisits⟩ := h
  refine hvisits.wellKeyed hn ?_
  obtain hfield | ⟨-, hs⟩ := Option.or_eq_some_iff.mp hv
  · rwa [Json.eq_of_asField hfield]
  · exact wellKeyed_substitute hn.header hs

end Walks

end Schema

end PipelineConfig
