import PipelineConfig.Proofs.Equality

/-!
# Values with their members in another order

Two values are rearrangements of each other if they differ in nothing but the order in
which objects hold their members, at any depth. Neither the levels inside a value nor
sameness of values sees that order.
-/

namespace PipelineConfig

namespace Json

/-- The second value is the first with the members of objects in another order, at any depth. -/
inductive Rearranged : Json → Json → Prop where
  /-- Every order may stay as it is. -/
  | self (v : Json) : Rearranged v v
  /-- Elements stay at their places and are rearranged one by one. -/
  | array {us vs : List Json} : us.length = vs.length →
      (∀ (i : Nat) u v, us[i]? = some u → vs[i]? = some v → Rearranged u v) →
      Rearranged (.array us) (.array vs)
  /-- Members under distinct keys take another order, and their values are rearranged. -/
  | object {us vs : List (String × Json)} : (us.map Prod.fst).Nodup →
      (us.map Prod.fst).Perm (vs.map Prod.fst) →
      (∀ name u v, (name, u) ∈ us → (name, v) ∈ vs → Rearranged u v) →
      Rearranged (.object us) (.object vs)

namespace Rearranged

variable {u v a b : Json}

theorem symm (h : u.Rearranged v) : v.Rearranged u := by
  induction h with
  | self v => exact .self v
  | array hlength _ ih => exact .array hlength.symm fun i u v hu hv => ih i v u hv hu
  | object hd hkeys _ ih =>
    exact .object (hkeys.nodup_iff.mp hd) hkeys.symm fun name u v hu hv => ih name v u hv hu

theorem isNull_eq (h : u.Rearranged v) : u.isNull = v.isNull := by cases h <;> rfl

theorem typeName_eq (h : u.Rearranged v) : u.typeName = v.typeName := by cases h <;> rfl

/-- Rearranged values are of the same kinds. -/
theorem admits_eq (h : u.Rearranged v) (kind : Kind) : kind.admits u = kind.admits v := by
  cases h with
  | self => rfl
  | array | object => cases kind <;> rfl

/-- A single value has nothing to rearrange. -/
theorem eq_of_leaf (h : u.Rearranged v) {type : Leaf} (hk : type.kind.admits u = true) : u = v := by
  cases h with
  | self => rfl
  | array | object => cases type <;> cases hk

/-- Elements are rearranged place by place. -/
theorem elements {us vs : List Json} (h : (Json.array us).Rearranged (.array vs)) :
    List.Forall₂ Rearranged us vs := by
  cases h with
  | self => exact List.forall₂_same.mpr fun v _ => .self v
  | array hlength h =>
    refine List.forall₂_iff_get.mpr ⟨hlength, fun i hu hv => ?_⟩
    exact h i _ _ (List.getElem?_eq_getElem hu) (List.getElem?_eq_getElem hv)

/-- Elements that are rearranged one by one make up a rearranged array. -/
theorem ofElements {us vs : List Json} (h : List.Forall₂ Rearranged us vs) :
    (Json.array us).Rearranged (.array vs) := by
  refine .array h.length_eq fun i u v hu hv => ?_
  obtain ⟨hi, rfl⟩ := List.getElem?_eq_some_iff.mp hu
  obtain ⟨hi', rfl⟩ := List.getElem?_eq_some_iff.mp hv
  exact h.get hi hi'

section Members

variable {us vs : List (String × Json)} (h : (Json.object us).Rearranged (.object vs))

include h

theorem keys_perm : (us.map Prod.fst).Perm (vs.map Prod.fst) := by
  cases h with
  | self => exact .refl _
  | object _ hkeys _ => exact hkeys

/-- Under every key both have a value, one a rearrangement of the other, or neither has. -/
theorem lookup (key : String) : Option.Rel Rearranged (us.lookup key) (vs.lookup key) := by
  cases h with
  | self =>
    cases us.lookup key with
    | none => exact .none
    | some v => exact .some (.self v)
  | object hd hkeys hvalues =>
    have hd' := hkeys.nodup_iff.mp hd
    cases hu : us.lookup key with
    | none =>
      have hv : vs.lookup key = none := by
        rw [Members.lookup_eq_none_iff] at hu ⊢
        exact fun hm => hu (hkeys.mem_iff.mpr hm)
      rw [hv]
      exact .none
    | some u =>
      have hu := Members.mem_of_lookup hu
      obtain ⟨v, hv⟩ := Members.exists_of_mem_keys (hkeys.mem_iff.mp (Members.mem_keys hu))
      rw [Members.lookup_of_mem hd' hv]
      exact .some (hvalues key u v hu hv)

/-- So both have the same fields, or leave them out. -/
theorem fieldValue (name : String) :
    Option.Rel Rearranged (PipelineConfig.fieldValue us name)
      (PipelineConfig.fieldValue vs name) :=
  rel_fieldValue (fun _ _ huv => huv.isNull_eq) (h.lookup name)

end Members

/-- A rearrangement reaches no further. -/
theorem height_le (h : u.Rearranged v) : v.height ≤ u.height := by
  induction h with
  | self => exact Nat.le_refl _
  | @array us vs hlength _ ih =>
    rw [height, height, heightOfElements_le_iff]
    intro v hm
    obtain ⟨i, hv⟩ := List.getElem?_of_mem hm
    obtain ⟨hi, -⟩ := List.getElem?_eq_some_iff.mp hv
    have hu : us[i]? = some us[i] := List.getElem?_eq_getElem (hlength ▸ hi)
    have hlt := heightOfElements_le_iff.mp (Nat.le_refl _) _ (List.mem_of_getElem? hu)
    exact Nat.lt_of_le_of_lt (ih i _ v hu hv) hlt
  | @object us vs _ hkeys _ ih =>
    rw [height, height, heightOfMembers_le_iff]
    intro name v hv
    obtain ⟨u, hu⟩ := Members.exists_of_mem_keys (hkeys.mem_iff.mpr (Members.mem_keys hv))
    have hlt := heightOfMembers_le_iff.mp (Nat.le_refl _) name u hu
    exact Nat.lt_of_le_of_lt (ih name u v hu hv) hlt

theorem height_eq (h : u.Rearranged v) : u.height = v.height :=
  Nat.le_antisymm h.symm.height_le h.height_le

/-- What is the same as a value is the same as its rearrangements. -/
theorem same_right (h : u.Rearranged v) (hs : a.same u = true) : a.same v = true := by
  induction h generalizing a with
  | self => exact hs
  | @array us vs hlength hvalues ih =>
    cases a with
    | array as =>
      rw [same, sameElements_iff, List.forall₂_iff_get] at hs ⊢
      refine ⟨hs.1.trans hlength, fun i ha hv => ?_⟩
      have hu : i < us.length := hlength ▸ hv
      exact ih i _ _ (List.getElem?_eq_getElem hu) (List.getElem?_eq_getElem hv) (hs.2 i ha hu)
    | _ => cases hs
  | @object us vs hd hkeys hvalues ih =>
    cases a with
    | object as =>
      have hlength := hkeys.length_eq
      rw [List.length_map, List.length_map] at hlength
      rw [same, Bool.and_eq_true, beq_iff_eq, sameMembers_iff] at hs ⊢
      refine ⟨hs.1.trans hlength, fun key a ha => ?_⟩
      obtain ⟨u, hl, hs⟩ := hs.2 key a ha
      have hu := Members.mem_of_lookup hl
      obtain ⟨v, hv⟩ := Members.exists_of_mem_keys (hkeys.mem_iff.mp (Members.mem_keys hu))
      exact ⟨v, Members.lookup_of_mem (hkeys.nodup_iff.mp hd) hv, ih key u v hu hv hs⟩
    | _ => cases hs

theorem same_left (h : u.Rearranged v) (hs : u.same a = true) : v.same a = true := by
  induction h generalizing a with
  | self => exact hs
  | @array us vs hlength hvalues ih =>
    cases a with
    | array as =>
      rw [same, sameElements_iff, List.forall₂_iff_get] at hs ⊢
      refine ⟨hlength.symm.trans hs.1, fun i hv ha => ?_⟩
      have hu : i < us.length := hlength ▸ hv
      exact ih i _ _ (List.getElem?_eq_getElem hu) (List.getElem?_eq_getElem hv) (hs.2 i hu ha)
    | _ => cases hs
  | @object us vs hd hkeys hvalues ih =>
    cases a with
    | object as =>
      have hlength := hkeys.length_eq
      rw [List.length_map, List.length_map] at hlength
      rw [same, Bool.and_eq_true, beq_iff_eq, sameMembers_iff] at hs ⊢
      refine ⟨hlength.symm.trans hs.1, fun key v hv => ?_⟩
      obtain ⟨u, hu⟩ := Members.exists_of_mem_keys (hkeys.mem_iff.mpr (Members.mem_keys hv))
      obtain ⟨a, ha, hs⟩ := hs.2 key u hu
      exact ⟨a, ha, ih key u v hu hv hs⟩
    | _ => cases hs

/-- Sameness does not see the order of members. -/
theorem same_eq (hu : u.Rearranged v) (ha : a.Rearranged b) : u.same a = v.same b := by
  rw [Bool.eq_iff_iff]
  exact ⟨fun h => hu.same_left (ha.same_right h),
    fun h => hu.symm.same_left (ha.symm.same_right h)⟩

end Rearranged

end Json

end PipelineConfig
