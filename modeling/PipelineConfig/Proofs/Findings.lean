import PipelineConfig.Proofs.Repeats
import PipelineConfig.Proofs.Walk

/-!
# Kinds of violations that are found

Which kinds of violations a look finds depends on what it finds further in alone.
For every kind of look one statement says when it finds only violations of the
allowed kinds. Nothing at all is found if no kind is allowed, and no limit is met
if all kinds but one are.
-/

namespace PipelineConfig

namespace Checked

variable {α : Type}

/-- Every violation is of an allowed kind. -/
def FindsOnly (allowed : Violation.Kind → Prop) (c : Checked α) : Prop :=
  ∀ x ∈ c.violations, allowed x.kind

/-- No violation is about a limit. -/
def WithinLimits (c : Checked α) : Prop := c.FindsOnly (· ≠ .limitExceeded)

/-- If no kind is allowed, nothing is found. -/
theorem findsOnly_false_iff {c : Checked α} :
    c.FindsOnly (fun _ => False) ↔ c.violations = [] :=
  List.eq_nil_iff_forall_not_mem.symm

theorem FindsOnly.imp {c : Checked α} {allowed other : Violation.Kind → Prop}
    (h : c.FindsOnly allowed) (himp : ∀ kind, allowed kind → other kind) : c.FindsOnly other :=
  fun x hx => himp x.kind (h x hx)

end Checked

/-- An element is a duplicate if it is the same as an earlier one. -/
theorem duplicates_eq_nil_iff {elements : List Json} :
    duplicates elements = [] ↔ elements.Pairwise fun u v => u.same v = false := by
  rw [duplicates_eq_map_repeats, List.map_eq_nil_iff, List.pairwise_iff_getElem]
  constructor
  · intro h j i hj hi hji
    refine Bool.eq_false_iff.mpr fun hs => ?_
    have hm : i ∈ (repeats elements).map Prod.fst := mem_keys_repeats_iff.mpr
      ⟨j, _, _, hji, List.getElem?_eq_getElem hj, List.getElem?_eq_getElem hi, hs⟩
    rw [h] at hm
    cases hm
  · intro h
    rw [← List.map_eq_nil_iff (f := Prod.fst), List.eq_nil_iff_forall_not_mem]
    intro i hm
    obtain ⟨j, u, v, hji, hu, hv, hs⟩ := mem_keys_repeats_iff.mp hm
    obtain ⟨hj, rfl⟩ := List.getElem?_eq_some_iff.mp hu
    obtain ⟨hi, rfl⟩ := List.getElem?_eq_some_iff.mp hv
    rw [h j i hj hi hji] at hs
    cases hs

theorem kind_of_mem_duplicates {elements : List Json} {x : Violation}
    (h : x ∈ duplicates elements) : x.kind = .duplicateItem := by
  rw [duplicates_eq_map_repeats] at h
  obtain ⟨r, -, rfl⟩ := List.mem_map.mp h
  rfl

theorem kind_of_mem_notAllowed {allowed : List Json} {v : Json} {x : Violation}
    (h : x ∈ notAllowed allowed v) : x.kind = .valueNotInEnum := by
  unfold notAllowed at h
  split at h
  · cases h
  · rw [List.mem_singleton.mp h]
    rfl

theorem kind_of_mem_outOfBounds {bounds : Bounds} {v : Json} {x : Violation}
    (h : x ∈ outOfBounds bounds v) : x.kind = .outOfRange := by
  cases v with
  | number n =>
    rw [outOfBounds, List.mem_append] at h
    rcases h with h | h
    · repeat' split at h
      · rw [List.mem_singleton.mp h]
        rfl
      · cases h
      · cases h
    · repeat' split at h
      · rw [List.mem_singleton.mp h]
        rfl
      · cases h
      · cases h
  | null | bool | string | array | object => cases h

variable {limits : Limits} {depth : Nat} {allowed : Violation.Kind → Prop} {v : Json}

namespace Limits

theorem findsOnly_carry :
    (limits.carry depth v).FindsOnly allowed ↔
      (limits.maxDepth < depth + v.height → allowed .limitExceeded) := by
  rw [Checked.FindsOnly, violations_carry]
  by_cases h : limits.maxDepth < depth + v.height
  · rw [if_pos h, List.forall_mem_singleton]
    exact ⟨fun ha _ => ha, fun ha => ha h⟩
  · rw [if_neg h]
    exact ⟨fun _ hlt => absurd hlt h, fun _ x hx => absurd hx List.not_mem_nil⟩

theorem withinLimits_carry :
    (limits.carry depth v).WithinLimits ↔ depth + v.height ≤ limits.maxDepth := by
  rw [Checked.WithinLimits, findsOnly_carry]
  exact ⟨fun h => Nat.not_lt.mp fun hlt => h hlt rfl, fun h hlt => absurd h (Nat.not_le.mpr hlt)⟩

theorem violations_carry_of_within (h : (limits.carry depth v).WithinLimits) :
    (limits.carry depth v).violations = [] := by
  rw [violations_carry, if_neg (Nat.not_lt.mpr (withinLimits_carry.mp h))]

theorem findsOnly_mismatch {kind : Kind} :
    (limits.mismatch depth kind v).FindsOnly allowed ↔
      allowed .typeMismatch ∧ (limits.carry depth v).FindsOnly allowed := by
  rw [Checked.FindsOnly, violations_mismatch, List.forall_mem_cons]
  rfl

end Limits

namespace Schema

variable {node : Schema}

theorem findsOnly_examineGiven :
    (node.examineGiven limits depth v).FindsOnly allowed ↔
      (limits.maxDepth < depth → allowed .limitExceeded) ∧
        (depth ≤ limits.maxDepth → (node.examine limits depth v).FindsOnly allowed) := by
  by_cases h : depth ≤ limits.maxDepth
  · rw [examineGiven_of_le h]
    exact ⟨fun hf => ⟨fun hlt => absurd h (Nat.not_le.mpr hlt), fun _ => hf⟩, fun hf => hf.2 h⟩
  · have hlt := Nat.not_le.mp h
    rw [examineGiven_of_lt hlt, Checked.FindsOnly, List.forall_mem_singleton]
    exact ⟨fun ha => ⟨fun _ => ha, fun hle => absurd hle h⟩, fun hf => hf.1 hlt⟩

/-- A given value that meets no limit lies within the greatest depth. -/
theorem withinLimits_examineGiven :
    (node.examineGiven limits depth v).WithinLimits ↔
      depth ≤ limits.maxDepth ∧ (node.examine limits depth v).WithinLimits := by
  rw [Checked.WithinLimits, findsOnly_examineGiven]
  constructor
  · intro h
    have hle : depth ≤ limits.maxDepth := by
      by_contra hlt
      exact h.1 (Nat.not_le.mp hlt) rfl
    exact ⟨hle, h.2 hle⟩
  · intro h
    exact ⟨fun hlt => absurd h.1 (Nat.not_le.mpr hlt), fun _ => h.2⟩

/-- An array that meets no limit is not too long. -/
theorem length_le_of_withinLimits {header : Header} {unique : Bool} {items : Schema}
    {elements : List Json}
    (h : ((array header unique items).examine limits depth (.array elements)).WithinLimits) :
    elements.length ≤ limits.maxArrayLength := by
  by_contra hlt
  rw [examine_array_of_lt (Nat.not_le.mp hlt)] at h
  exact h _ (List.mem_singleton_self _) rfl

theorem findsOnly_examineField_some :
    (node.examineField limits depth (some v)).FindsOnly allowed ↔
      (node.examineGiven limits depth v).FindsOnly allowed := by
  rw [examineField_some]
  rfl

theorem findsOnly_examineField_none :
    (node.examineField limits depth none).FindsOnly allowed ↔
      (node.substitute = .missing → allowed .missingRequiredField) ∧
        ∀ v, node.substitute.value? = some v →
          (node.examine limits depth v).FindsOnly allowed := by
  cases hs : node.substitute with
  | default v =>
    rw [examineField_default hs]
    simp [Substitute.value?, Checked.FindsOnly]
  | missing =>
    rw [examineField_missing hs]
    simp [Substitute.value?, Checked.FindsOnly, Violation.missingField]
  | empty v =>
    rw [examineField_empty hs]
    simp [Substitute.value?, Checked.FindsOnly]
  | nothing =>
    rw [examineField_nothing hs]
    simp [Substitute.value?, Checked.FindsOnly]

/-- The findings of an object are those of its declared fields and of its undeclared
members. -/
theorem findsOnly_examine_object {header : Header} {properties : List (String × Schema)}
    {members : List (String × Json)} :
    ((object header properties).examine limits depth (.object members)).FindsOnly allowed ↔
      (∀ name node, (name, node) ∈ properties →
        (node.examineField limits (depth + 1) (fieldValue members name)).FindsOnly allowed) ∧
      ∀ name v, (name, v) ∈ undeclared properties members →
        (limits.carry (depth + 1) v).FindsOnly allowed := by
  rw [Checked.FindsOnly, violations_examine_object, List.forall_mem_append,
    List.forall_mem_flatMap, List.forall_mem_flatMap]
  simp only [List.forall_mem_map, Prod.forall]
  rfl

/-- A value of a leaf's kind meets no limit. -/
theorem withinLimits_examine_leaf {header : Header} {type : Leaf} {values : List Json}
    (h : type.kind.admits v = true) :
    ((leaf header type values).examine limits depth v).WithinLimits := by
  rw [examine_leaf h]
  intro x hx hlimit
  rcases List.mem_append.mp hx with hx | hx
  · rw [kind_of_mem_notAllowed hx] at hlimit
    cases hlimit
  · rw [kind_of_mem_outOfBounds hx] at hlimit
    cases hlimit

variable {header : Header} {unique : Bool} {items : Schema} {elements : List Json}

theorem findsOnly_examine_array_of_lt (h : limits.maxArrayLength < elements.length) :
    ((array header unique items).examine limits depth (.array elements)).FindsOnly allowed ↔
      allowed .limitExceeded := by
  rw [examine_array_of_lt h, Checked.FindsOnly, List.forall_mem_singleton]
  rfl

/-- The findings of an array are those of its elements, and its duplicates. -/
theorem findsOnly_examine_array (h : elements.length ≤ limits.maxArrayLength) :
    ((array header unique items).examine limits depth (.array elements)).FindsOnly allowed ↔
      (∀ v ∈ elements, (items.examineGiven limits (depth + 1) v).FindsOnly allowed) ∧
      (unique = true → ¬ allowed .duplicateItem →
        duplicates (elements.map fun v => (items.examineGiven limits (depth + 1) v).value) =
          []) := by
  rw [Checked.FindsOnly, violations_examine_array h, List.forall_mem_append,
    List.forall_mem_flatMap]
  simp only [List.forall_mem_map]
  refine and_congr ?_ ?_
  · constructor
    · intro hf v hm
      obtain ⟨i, hi⟩ := List.getElem?_of_mem hm
      exact hf (v, i) (List.mem_zipIdx_iff_getElem?.mpr hi)
    · rintro hf ⟨v, i⟩ hm
      exact hf v (List.fst_mem_of_mem_zipIdx hm)
  · cases unique with
    | false => simp
    | true =>
      simp only [if_true, true_imp_iff]
      constructor
      · intro hf hnot
        refine List.eq_nil_iff_forall_not_mem.mpr fun x hx => hnot ?_
        rw [← kind_of_mem_duplicates hx]
        exact hf x hx
      · intro hf x hx
        by_contra hnot
        rw [kind_of_mem_duplicates hx] at hnot
        rw [hf hnot] at hx
        cases hx

end Schema

end PipelineConfig
