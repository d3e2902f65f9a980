import Mathlib.Data.List.Perm.Basic
import PipelineConfig.Proofs.Rearrangement
import PipelineConfig.Proofs.Walk

/-!
# The order of members does not matter

A configuration and its rearrangements get reports that agree in all but order: the same
violations in some order, the same places of used defaults, and rearranged values. It holds
for every schema, also for one that declares a field twice: what the schema says, and the
order in which it says so, is the same for both.
-/

namespace PipelineConfig

section Lists

variable {α β : Type} {r : α → α → Prop} {as bs : List α}

/-- What is made of related elements one by one is the same in all. -/
theorem map_eq_of_forall₂ {f g : α → β} (h : List.Forall₂ r as bs)
    (hfg : ∀ a b, r a b → f a = g b) : as.map f = bs.map g := by
  rw [← List.forall₂_eq_eq_eq]
  exact List.rel_map (fun a b hab => hfg a b hab) h

theorem filterMap_eq_of_forall₂ {f g : α → Option β} (h : List.Forall₂ r as bs)
    (hfg : ∀ a b, r a b → f a = g b) : as.filterMap f = bs.filterMap g := by
  have hid : ∀ (l : List α) (f : α → Option β), l.filterMap f = (l.map f).filterMap id :=
    fun l f => by rw [List.filterMap_map, Function.id_comp]
  rw [hid, map_eq_of_forall₂ h hfg, ← hid]

theorem findIdx?_eq_of_forall₂ {p q : α → Bool} (h : List.Forall₂ r as bs)
    (hpq : ∀ a b, r a b → p a = q b) : as.findIdx? p = bs.findIdx? q := by
  have hid : ∀ (l : List α) (p : α → Bool), l.findIdx? p = (l.map p).findIdx? id :=
    fun l p => by rw [List.findIdx?_map, Function.id_comp]
  rw [hid, map_eq_of_forall₂ h hpq, ← hid]

/-- What is found of related elements one by one is the same in all, in some order. -/
theorem perm_flatMap_of_forall₂ {f g : α → List β} (h : List.Forall₂ r as bs)
    (hfg : ∀ a b, r a b → (f a).Perm (g b)) : (as.flatMap f).Perm (bs.flatMap g) := by
  induction h with
  | nil => exact .refl _
  | cons hab _ ih =>
    rw [List.flatMap_cons, List.flatMap_cons]
    exact (hfg _ _ hab).append ih

/-- Related elements stand at the same places. -/
theorem forall₂_zipIdx (h : List.Forall₂ r as bs) (start : Nat) :
    List.Forall₂ (fun p q : α × Nat => r p.1 q.1 ∧ p.2 = q.2) (as.zipIdx start)
      (bs.zipIdx start) := by
  induction h generalizing start with
  | nil => exact .nil
  | cons hab _ ih =>
    rw [List.zipIdx_cons, List.zipIdx_cons]
    exact .cons ⟨hab, rfl⟩ (ih (start + 1))

end Lists

namespace Json.Rearranged

/-- The same elements repeat the same earlier ones. -/
theorem duplicates_eq {us vs : List Json} (h : List.Forall₂ Rearranged us vs) :
    duplicates us = duplicates vs := by
  refine filterMap_eq_of_forall₂ (forall₂_zipIdx h 0) fun p q hpq => ?_
  obtain ⟨u, i⟩ := p
  obtain ⟨v, j⟩ := q
  obtain ⟨huv, rfl⟩ : u.Rearranged v ∧ i = j := hpq
  exact congrArg (Option.map _) (findIdx?_eq_of_forall₂ (List.forall₂_take i h)
    fun a b hab => hab.same_eq huv)

/-- Of two fields that have rearranged values or none, both are null if nothing is there. -/
theorem getD_null {field field' : Option Json} (h : Option.Rel Rearranged field field') :
    (field.getD .null).Rearranged (field'.getD .null) := by
  cases h with
  | none => exact .self _
  | some huv => exact huv

section Members

variable {us vs us' vs' : List (String × Json)}

/-- What is made of the members one by one is made of the rearranged ones, in some order. -/
theorem perm_flatMap {β : Type} {f : String × Json → List β}
    (hf : ∀ name u v, Rearranged u v → f (name, u) = f (name, v))
    (h : (Json.object us).Rearranged (.object vs)) : (us.flatMap f).Perm (vs.flatMap f) := by
  cases h with
  | self => exact .refl _
  | object hd hkeys hvalues =>
    have h : (Json.object us).Rearranged (.object vs) := .object hd hkeys hvalues
    rw [Members.flatMap_eq_flatMap_keys hd,
      Members.flatMap_eq_flatMap_keys (hkeys.nodup_iff.mp hd)]
    refine (hkeys.flatMap_right _).trans (.of_eq (List.flatMap_congr fun key _ => ?_))
    have hlookup := h.lookup key
    generalize us.lookup key = u at hlookup ⊢
    generalize vs.lookup key = v at hlookup ⊢
    cases hlookup with
    | none => rfl
    | some huv => rw [Option.map_some, Option.map_some, hf key _ _ huv]

/-- Members under one of distinct keys are rearrangements of each other. -/
theorem of_mem (h : (Json.object us).Rearranged (.object vs)) (hd : (us.map Prod.fst).Nodup)
    {name : String} {u v : Json} (hu : (name, u) ∈ us) (hv : (name, v) ∈ vs) : u.Rearranged v := by
  have hlookup := h.lookup name
  rw [Members.lookup_of_mem hd hu, Members.lookup_of_mem (h.keys_perm.nodup_iff.mp hd) hv]
    at hlookup
  cases hlookup with
  | some huv => exact huv

/-- Parts with distinct keys are rearranged one by one. -/
theorem append (h : (Json.object us).Rearranged (.object vs))
    (h' : (Json.object us').Rearranged (.object vs')) (hd : ((us ++ us').map Prod.fst).Nodup) :
    (Json.object (us ++ us')).Rearranged (.object (vs ++ vs')) := by
  have hkeys : ((us ++ us').map Prod.fst).Perm ((vs ++ vs').map Prod.fst) := by
    rw [List.map_append, List.map_append]
    exact h.keys_perm.append h'.keys_perm
  have hparts := hd
  rw [List.map_append, List.nodup_append] at hparts
  obtain ⟨hus, hus', happart⟩ := hparts
  refine .object hd hkeys fun name u v hu hv => ?_
  rcases List.mem_append.mp hu with hu | hu <;> rcases List.mem_append.mp hv with hv | hv
  · exact h.of_mem hus hu hv
  · exact absurd rfl (happart _ (Members.mem_keys hu) _
      (h'.keys_perm.mem_iff.mpr (Members.mem_keys hv)))
  · exact absurd rfl (happart _ (h.keys_perm.mem_iff.mpr (Members.mem_keys hv)) _
      (Members.mem_keys hu))
  · exact h'.of_mem hus' hu hv

/-- Undeclared members are rearranged with the rest. -/
theorem undeclared (properties : List (String × Schema))
    (h : (Json.object us).Rearranged (.object vs)) :
    (Json.object (PipelineConfig.undeclared properties us)).Rearranged
      (.object (PipelineConfig.undeclared properties vs)) := by
  cases h with
  | self => exact .self _
  | object hd hkeys hvalues =>
    have hnames : ∀ members : List (String × Json),
        (PipelineConfig.undeclared properties members).map Prod.fst =
          (members.map Prod.fst).filter fun name => !properties.any fun p => p.1 == name :=
      fun members => by rw [List.filter_map]; rfl
    refine .object ?_ ?_ fun name u v hu hv => ?_
    · exact (List.filter_sublist.map _).nodup hd
    · rw [hnames, hnames]
      exact hkeys.filter _
    · exact hvalues name u v (mem_undeclared.mp hu).1 (mem_undeclared.mp hv).1

end Members

end Json.Rearranged

namespace Members

variable {us vs : List (String × Json)}

/-- Both members are under one key, with rearranged values. -/
def Rearranged (m n : String × Json) : Prop := m.1 = n.1 ∧ m.2.Rearranged n.2

theorem keys_eq_of_forall₂ (h : List.Forall₂ Rearranged us vs) :
    us.map Prod.fst = vs.map Prod.fst := by
  induction h with
  | nil => rfl
  | cons hm _ ih => rw [List.map_cons, List.map_cons, hm.1, ih]

theorem insert_rearranged {key : String} {u v : Json} (huv : u.Rearranged v)
    (h : List.Forall₂ Rearranged us vs) :
    List.Forall₂ Rearranged (insert key u us) (insert key v vs) := by
  induction h with
  | nil => exact .cons ⟨rfl, huv⟩ .nil
  | @cons m n us vs hmn hrest ih =>
    obtain ⟨name, a⟩ := m
    obtain ⟨name', b⟩ := n
    obtain ⟨rfl, hab⟩ := hmn
    rw [insert, insert]
    split
    · exact .cons ⟨rfl, huv⟩ hrest
    · exact .cons ⟨rfl, hab⟩ ih

/-- Members that are rearranged one by one are collected as such. -/
theorem collect_rearranged (h : List.Forall₂ Rearranged us vs) :
    List.Forall₂ Rearranged (collect us) (collect vs) := by
  have hkept : ∀ kept kept', List.Forall₂ Rearranged kept kept' →
      List.Forall₂ Rearranged (us.foldl (fun kept m => insert m.1 m.2 kept) kept)
        (vs.foldl (fun kept m => insert m.1 m.2 kept) kept') := by
    induction h with
    | nil => exact fun _ _ hk => hk
    | @cons m n us vs hmn _ ih =>
      intro kept kept' hk
      rw [List.foldl_cons, List.foldl_cons, hmn.1]
      exact ih _ _ (insert_rearranged hmn.2 hk)
  exact hkept [] [] .nil

/-- Members under distinct keys that are rearranged one by one make up a rearranged object. -/
theorem object_rearranged (hd : (us.map Prod.fst).Nodup) (h : List.Forall₂ Rearranged us vs) :
    (Json.object us).Rearranged (.object vs) := by
  refine .object hd (.of_eq (keys_eq_of_forall₂ h)) ?_
  induction h with
  | nil => exact fun _ _ _ hu => absurd hu List.not_mem_nil
  | @cons m n us vs hmn hrest ih =>
    obtain ⟨key, a⟩ := m
    obtain ⟨key', b⟩ := n
    obtain ⟨rfl, hab⟩ := hmn
    obtain ⟨habsent, hdistinct⟩ := List.nodup_cons.mp hd
    intro name u v hu hv
    rcases List.mem_cons.mp hu with he | hu
    · cases he
      rcases List.mem_cons.mp hv with he | hv
      · cases he
        exact hab
      · rw [keys_eq_of_forall₂ hrest] at habsent
        exact absurd (mem_keys hv) habsent
    · rcases List.mem_cons.mp hv with he | hv
      · cases he
        exact absurd (mem_keys hu) habsent
      · exact ih hdistinct name u v hu hv

end Members

/-- The declared fields of both have related values. -/
theorem declaredMembers_rearranged {properties : List (String × Schema)}
    {value other : String → Schema → Option Json}
    (h : ∀ p ∈ properties, Option.Rel Json.Rearranged (value p.1 p.2) (other p.1 p.2)) :
    List.Forall₂ Members.Rearranged (declaredMembers value properties)
      (declaredMembers other properties) := by
  induction properties with
  | nil => exact .nil
  | cons head rest ih =>
    obtain ⟨name, node⟩ := head
    have hhead := h (name, node) List.mem_cons_self
    have hrest := ih fun p hp => h p (List.mem_cons_of_mem _ hp)
    rw [declaredMembers_cons, declaredMembers_cons]
    dsimp only at hhead
    generalize value name node = u at hhead ⊢
    generalize other name node = v at hhead ⊢
    cases hhead with
    | none => exact hrest
    | some huv => exact .cons ⟨rfl, huv⟩ hrest

namespace Checked

/-- Two looks agree in all but order: the values are related, the violations are the same in
some order, and the places of used defaults are the same. -/
structure Matches {α : Type} (r : α → α → Prop) (c d : Checked α) : Prop where
  /-- The values are related. -/
  value : r c.value d.value
  /-- The violations are the same, in some order. -/
  violations : c.violations.Perm d.violations
  /-- The places of used defaults are the same, in the same order. -/
  defaulted : c.defaulted = d.defaulted

end Checked

namespace Schema

variable {limits : Limits} {depth : Nat} {node : Schema} {u v : Json}

/-- Values carried over reach equally deep. -/
theorem matches_carry (h : u.Rearranged v) :
    (limits.carry depth u).Matches Json.Rearranged (limits.carry depth v) := by
  refine ⟨?_, ?_, ?_⟩
  · rwa [Limits.value_carry, Limits.value_carry]
  · rw [Limits.violations_carry, Limits.violations_carry, h.height_eq]
  · rw [Limits.defaulted_carry, Limits.defaulted_carry]

theorem matches_mismatch {kind : Kind} (h : u.Rearranged v) :
    (limits.mismatch depth kind u).Matches Json.Rearranged (limits.mismatch depth kind v) := by
  have hcarry : (limits.carry depth u).Matches Json.Rearranged (limits.carry depth v) :=
    matches_carry h
  refine ⟨hcarry.value, ?_, hcarry.defaulted⟩
  rw [Limits.violations_mismatch, Limits.violations_mismatch, h.typeName_eq]
  exact hcarry.violations.cons _

theorem matches_examineGiven (h : u.Rearranged v)
    (hlook : (node.examine limits depth u).Matches Json.Rearranged (node.examine limits depth v)) :
    (node.examineGiven limits depth u).Matches Json.Rearranged
      (node.examineGiven limits depth v) := by
  by_cases hdepth : depth ≤ limits.maxDepth
  · rwa [examineGiven_of_le hdepth, examineGiven_of_le hdepth]
  · rw [examineGiven_of_lt (Nat.not_le.mp hdepth), examineGiven_of_lt (Nat.not_le.mp hdepth)]
    exact ⟨h, .refl _, rfl⟩

theorem matches_examineField {field field' : Option Json}
    (h : Option.Rel Json.Rearranged field field')
    (hlook : ∀ u v, u.Rearranged v →
      (node.examine limits depth u).Matches Json.Rearranged (node.examine limits depth v)) :
    (node.examineField limits depth field).Matches (Option.Rel Json.Rearranged)
      (node.examineField limits depth field') := by
  cases h with
  | none =>
    refine ⟨?_, .refl _, rfl⟩
    cases (node.examineField limits depth none).value with
    | none => exact .none
    | some v => exact .some (.self v)
  | @some u v huv =>
    have hgiven := matches_examineGiven huv (hlook u v huv)
    rw [examineField_some, examineField_some]
    exact ⟨.some hgiven.value, hgiven.violations, hgiven.defaulted⟩

/-- An object and its rearrangement are looked at field by field, in the order of the
declarations; undeclared members come in the order in which they are held. -/
theorem matches_examine_object {header : Header} {properties : List (String × Schema)}
    {us vs : List (String × Json)} (hd : (us.map Prod.fst).Nodup)
    (h : (Json.object us).Rearranged (.object vs))
    (hlook : ∀ name child, (name, child) ∈ properties → ∀ u v, u.Rearranged v →
      (child.examine limits (depth + 1) u).Matches Json.Rearranged
        (child.examine limits (depth + 1) v)) :
    ((object header properties).examine limits depth (.object us)).Matches Json.Rearranged
      ((object header properties).examine limits depth (.object vs)) := by
  have hfield : ∀ p ∈ properties,
      (p.2.examineField limits (depth + 1) (fieldValue us p.1)).Matches
        (Option.Rel Json.Rearranged)
        (p.2.examineField limits (depth + 1) (fieldValue vs p.1)) :=
    fun p hp => matches_examineField (h.fieldValue p.1) (hlook p.1 p.2 hp)
  refine ⟨?_, ?_, ?_⟩
  · rw [value_examine_object, value_examine_object, replaceDeclared, replaceDeclared]
    have hdeclared : List.Forall₂ Members.Rearranged
        (declaredMembers (fun name node =>
          (node.examineField limits (depth + 1) (fieldValue us name)).value) properties)
        (declaredMembers (fun name node =>
          (node.examineField limits (depth + 1) (fieldValue vs name)).value) properties) :=
      declaredMembers_rearranged fun p hp => (hfield p hp).value
    refine (Members.object_rearranged Members.nodup_keys_collect
      (Members.collect_rearranged hdeclared)).append (h.undeclared properties) ?_
    rw [List.map_append, List.nodup_append]
    refine ⟨Members.nodup_keys_collect, (List.filter_sublist.map _).nodup hd, ?_⟩
    rintro key hk _ hu rfl
    obtain ⟨v, hm⟩ := Members.exists_of_mem_keys hk
    obtain ⟨w, hu⟩ := Members.exists_of_mem_keys hu
    obtain ⟨child, hp, -⟩ := mem_of_mem_declaredMembers (Members.mem_of_mem_collect hm)
    exact (mem_undeclared.mp hu).2 (Members.mem_keys hp)
  · rw [violations_examine_object, violations_examine_object]
    refine (List.Perm.flatMap_left properties fun p hp => (hfield p hp).violations.map _).append ?_
    refine (h.undeclared properties).perm_flatMap fun name u v huv => ?_
    rw [Limits.violations_carry, Limits.violations_carry, huv.height_eq]
  · rw [defaulted_examine_object, defaulted_examine_object]
    exact List.flatMap_congr fun p hp => by rw [(hfield p hp).defaulted]

/-- An array and its rearrangement are looked at element by element. -/
theorem matches_examine_array {header : Header} {unique : Bool} {items : Schema}
    {us vs : List Json} (h : (Json.array us).Rearranged (.array vs))
    (hlook : ∀ u v, u.Rearranged v →
      (items.examine limits (depth + 1) u).Matches Json.Rearranged
        (items.examine limits (depth + 1) v)) :
    ((array header unique items).examine limits depth (.array us)).Matches Json.Rearranged
      ((array header unique items).examine limits depth (.array vs)) := by
  have helements := h.elements
  have hlength := helements.length_eq
  have hgiven := fun u v huv => matches_examineGiven huv (hlook u v huv)
  by_cases hl : us.length ≤ limits.maxArrayLength
  · have hl' : vs.length ≤ limits.maxArrayLength := hlength ▸ hl
    have hvalues : List.Forall₂ Json.Rearranged
        (us.map fun v => (items.examineGiven limits (depth + 1) v).value)
        (vs.map fun v => (items.examineGiven limits (depth + 1) v).value) :=
      List.rel_map (fun u v huv => (hgiven u v huv).value) helements
    have hplaces := forall₂_zipIdx helements 0
    refine ⟨?_, ?_, ?_⟩
    · rw [value_examine_array hl, value_examine_array hl']
      exact .ofElements hvalues
    · rw [violations_examine_array hl, violations_examine_array hl',
        Json.Rearranged.duplicates_eq hvalues]
      refine (perm_flatMap_of_forall₂ hplaces fun p q hpq => ?_).append (.refl _)
      rw [hpq.2]
      exact (hgiven _ _ hpq.1).violations.map _
    · rw [defaulted_examine_array hl, defaulted_examine_array hl', List.flatMap_def,
        List.flatMap_def]
      refine congrArg List.flatten (map_eq_of_forall₂ hplaces fun p q hpq => ?_)
      rw [hpq.2, (hgiven _ _ hpq.1).defaulted]
  · have hlong : limits.maxArrayLength < us.length := Nat.not_le.mp hl
    have hlong' : limits.maxArrayLength < vs.length := hlength ▸ hlong
    rw [examine_array_of_lt hlong, examine_array_of_lt hlong', hlength]
    exact ⟨h, .refl _, rfl⟩

/-- A value and its rearrangements are looked at alike in all but order. -/
theorem matches_examine (h : u.Rearranged v) :
    (node.examine limits depth u).Matches Json.Rearranged (node.examine limits depth v) := by
  induction node, u using inductionAlong generalizing depth v with
  | other node u hk =>
    have hk' : node.kind.admits v = false := (h.admits_eq node.kind).symm.trans hk
    rw [examine_of_not_admits hk, examine_of_not_admits hk']
    exact matches_mismatch h
  | leaf header type allowed u hk =>
    rw [h.eq_of_leaf hk]
    exact ⟨.self _, .refl _, rfl⟩
  | openObject header members =>
    cases h with
    | self => exact matches_carry (.self _)
    | object hd hkeys hvalues => exact matches_carry (.object hd hkeys hvalues)
  | object header properties members ih =>
    cases h with
    | self => exact ⟨.self _, .refl _, rfl⟩
    | object hd hkeys hvalues =>
      exact matches_examine_object hd (.object hd hkeys hvalues)
        fun name child hm u v huv => ih name child hm u huv
  | array header unique items elements ih =>
    cases h with
    | self => exact matches_examine_array (.self _) fun u v huv => ih u huv
    | array hlength hvalues =>
      exact matches_examine_array (.array hlength hvalues) fun u v huv => ih u huv

/-- The order in which a candidate holds its members does not matter to a validation: what
is accepted is accepted in any order, the same defaults are used, and the same violations
are found, though perhaps in another order. -/
theorem validate_rearranged (node : Schema) (limits : Limits) {candidate other : Json}
    (h : candidate.Rearranged other) :
    let report := node.validate limits candidate
    let report' := node.validate limits other
    report.ok = report'.ok ∧ report.defaulted = report'.defaulted ∧
      report.normalized.Rearranged report'.normalized ∧
      report.violations.Perm report'.violations := by
  intro report report'
  have hfield : Option.Rel Json.Rearranged candidate.asField other.asField := by
    rw [Json.asField, Json.asField, h.isNull_eq]
    cases other.isNull with
    | true => exact .none
    | false => exact .some h
  have hlook : (node.examineField limits 0 candidate.asField).Matches
      (Option.Rel Json.Rearranged) (node.examineField limits 0 other.asField) :=
    matches_examineField hfield fun _ _ huv => matches_examine huv
  exact ⟨hlook.violations.isEmpty_eq, hlook.defaulted, .getD_null hlook.value, hlook.violations⟩

/-- The members come in another order at two depths. The second tag repeats the first in
any order, and undeclared members are blamed in the order in which they are held. -/
theorem validate_rearranged_retry :
    let limits : Limits := { maxDepth := 1 }
    let pair := Json.object [("a", .null), ("b", .null)]
    let turned := Json.object [("b", .null), ("a", .null)]
    let candidate := Json.object [("name", .null), ("extra", pair), ("more", .array [.null]),
      ("tags", .array [pair, turned])]
    let other := Json.object [("tags", .array [turned, turned]), ("more", .array [.null]),
      ("extra", turned), ("name", .null)]
    let report := retrySchema.validate limits candidate
    let report' := retrySchema.validate limits other
    candidate.Rearranged other ∧
      report.violationsOf .duplicateItem = [.duplicateItem [.key "tags", .index 1] 0] ∧
      (report.violations.map (·.path)).drop 5 = [[.key "extra"], [.key "more"]] ∧
      (report'.violations.map (·.path)).drop 5 = [[.key "more"], [.key "extra"]] ∧
      report.ok = report'.ok ∧ report.defaulted = report'.defaulted ∧
      report.normalized.Rearranged report'.normalized ∧
      report.violations.Perm report'.violations := by
  intro limits pair turned candidate other report report'
  have hpair : pair.Rearranged turned := by
    refine .object (by decide) (by decide) fun name u v hu hv => ?_
    simp only [List.mem_cons, Prod.mk.injEq, List.not_mem_nil, or_false] at hu hv
    rcases hu with ⟨-, rfl⟩ | ⟨-, rfl⟩ <;> rcases hv with ⟨-, rfl⟩ | ⟨-, rfl⟩ <;> exact .self _
  have htags : (Json.array [pair, turned]).Rearranged (.array [turned, turned]) :=
    .ofElements (.cons hpair (.cons (.self _) .nil))
  have hcandidate : candidate.Rearranged other := by
    refine .object (by decide) (by decide) fun name u v hu hv => ?_
    simp only [List.mem_cons, Prod.mk.injEq, List.not_mem_nil, or_false] at hu
    rcases hu with ⟨rfl, rfl⟩ | ⟨rfl, rfl⟩ | ⟨rfl, rfl⟩ | ⟨rfl, rfl⟩
    · obtain rfl : v = .null := by simpa using hv
      exact .self _
    · obtain rfl : v = turned := by simpa using hv
      exact hpair
    · obtain rfl : v = .array [.null] := by simpa using hv
      exact .self _
    · obtain rfl : v = .array [turned, turned] := by simpa using hv
      exact htags
  exact ⟨hcandidate, by decide +kernel, by decide +kernel, by decide +kernel,
    validate_rearranged retrySchema limits hcandidate⟩

end Schema

end PipelineConfig
