import PipelineConfig.Validation.Examine
import Mathlib.Data.List.Nodup

/-!
# Members of an examined object

An object is put together again from a value for each declared field, in the
order of the declarations, and from its undeclared members as they were. With
distinct declared names every declared field is found under its own name, and
putting together twice depends on the second values alone. Collected members always
have distinct keys.
-/

namespace PipelineConfig

/-- Two readings one after another succeed exactly if both do. -/
theorem bind_eq_ok_iff {ε α β : Type} {x : Except ε α} {f : α → Except ε β} {b : β} :
    (x >>= f) = .ok b ↔ ∃ a, x = .ok a ∧ f a = .ok b := by
  cases x with
  | error e => exact ⟨nofun, nofun⟩
  | ok a => exact ⟨fun h => ⟨a, rfl, h⟩, fun ⟨_, he, h⟩ => by cases he; exact h⟩

theorem map_eq_ok_iff {ε α β : Type} {x : Except ε α} {f : α → β} {b : β} :
    x.map f = .ok b ↔ ∃ a, x = .ok a ∧ f a = b := by
  cases x with
  | error e => exact ⟨nofun, nofun⟩
  | ok a => exact ⟨fun h => ⟨a, rfl, Except.ok.inj h⟩, fun ⟨_, he, h⟩ => by cases he; cases h; rfl⟩

/-- What is refused under a condition is accepted only if the condition fails. -/
theorem ite_error_eq_ok_iff {ε α : Type} {p : Prop} [Decidable p] {e : ε} {x : Except ε α} {a : α} :
    (if p then .error e else x) = .ok a ↔ ¬ p ∧ x = .ok a := by
  by_cases hp : p
  · simp [hp]
  · simp [hp]

theorem exists_ok_ite_iff {ε α : Type} {p : Prop} [Decidable p] {e : ε} {a : α} :
    (∃ b, (if p then .error e else .ok a : Except ε α) = .ok b) ↔ ¬ p := by
  simp only [ite_error_eq_ok_iff, exists_and_left, Except.ok.injEq, exists_eq', and_true]

/-- What is sorted by a text is in ascending order of it. -/
theorem pairwise_mergeSort_text {α : Type} (key : α → String) (l : List α) :
    (l.mergeSort fun a b => decide (key a ≤ key b)).Pairwise
      fun a b => decide (key a ≤ key b) = true := by
  apply List.pairwise_mergeSort
  · intro a b c hab hbc
    exact decide_eq_true (String.le_trans (of_decide_eq_true hab) (of_decide_eq_true hbc))
  · intro a b
    simpa using String.le_total (key a) (key b)

namespace Members

theorem mem_of_lookup {κ α : Type} [BEq κ] [LawfulBEq κ] {members : List (κ × α)} {key : κ}
    {value : α} (h : members.lookup key = some value) : (key, value) ∈ members := by
  obtain ⟨before, after, rfl, _⟩ := List.lookup_eq_some_iff.mp h
  simp

/-- In a list of the keys that have a value, each with its value, the value of every key
is found. -/
theorem lookup_filterMap {κ α : Type} [BEq κ] [LawfulBEq κ] {keys : List κ} {value : κ → Option α}
    {key : κ} (h : ∀ v, value key = some v → key ∈ keys) :
    (keys.filterMap fun k => (value k).map fun v => (k, v)).lookup key = value key := by
  induction keys with
  | nil =>
    cases hv : value key with
    | none => rfl
    | some v => exact absurd (h v hv) List.not_mem_nil
  | cons k rest ih =>
    by_cases hk : key = k
    · subst hk
      cases hv : value key with
      | some v => simp [hv]
      | none =>
        rw [List.filterMap_cons, hv, Option.map_none, ← hv]
        exact ih fun v hv' => absurd (hv.symm.trans hv') (Option.some_ne_none v).symm
    · have hrest := ih fun v hv => (List.mem_cons.mp (h v hv)).resolve_left hk
      rw [List.filterMap_cons]
      cases value k with
      | none => exact hrest
      | some v =>
        rw [Option.map_some, List.lookup_cons, beq_eq_false_iff_ne.mpr hk]
        exact hrest

/-- A list of the keys that have a value, each with its value, has all keys if all have one. -/
theorem keys_filterMap {κ α : Type} {keys : List κ} {value : κ → Option α}
    (h : ∀ key ∈ keys, ∃ v, value key = some v) :
    (keys.filterMap fun k => (value k).map fun v => (k, v)).map Prod.fst = keys := by
  induction keys with
  | nil => rfl
  | cons key rest ih =>
    obtain ⟨v, hv⟩ := h key List.mem_cons_self
    rw [List.filterMap_cons, hv, Option.map_some, List.map_cons,
      ih fun k hk => h k (List.mem_cons_of_mem _ hk)]

variable {α : Type} {members : List (String × α)} {key : String} {value : α}

/-- Under distinct keys every member is found. -/
theorem lookup_of_mem (hd : (members.map Prod.fst).Nodup) (h : (key, value) ∈ members) :
    members.lookup key = some value := by
  induction members with
  | nil => cases h
  | cons head rest ih =>
    obtain ⟨habsent, hrest⟩ := List.nodup_cons.mp hd
    rcases List.mem_cons.mp h with rfl | h
    · exact List.lookup_cons_self
    · have hne : key ≠ head.1 := by
        rintro rfl
        exact habsent (List.mem_map.mpr ⟨_, h, rfl⟩)
      rw [List.lookup_cons, beq_eq_false_iff_ne.mpr hne]
      exact ih hrest h

/-- Under distinct keys a key has one value. -/
theorem eq_of_mem (hd : (members.map Prod.fst).Nodup) {other : α} (h : (key, value) ∈ members)
    (ho : (key, other) ∈ members) : value = other := by
  have hl := lookup_of_mem hd h
  rw [lookup_of_mem hd ho] at hl
  exact (Option.some.inj hl).symm

/-- A key whose members are all kept is found as before. -/
theorem lookup_filter {p : String × α → Bool} (h : ∀ v, p (key, v) = true) :
    (members.filter p).lookup key = members.lookup key := by
  induction members with
  | nil => rfl
  | cons head rest ih =>
    obtain ⟨name, v⟩ := head
    by_cases hname : key = name
    · subst hname
      rw [List.filter_cons_of_pos (h v), List.lookup_cons_self, List.lookup_cons_self]
    · have hne : (key == name) = false := beq_eq_false_iff_ne.mpr hname
      rw [List.lookup_cons, hne, ← ih, List.filter_cons]
      split
      · rw [List.lookup_cons, hne]
      · rfl

theorem lookup_eq_none_iff : members.lookup key = none ↔ key ∉ members.map Prod.fst := by
  simp only [List.lookup_eq_none_iff, List.mem_map, bne_iff_ne]
  constructor
  · rintro h ⟨m, hm, he⟩
    exact h m hm he.symm
  · rintro h m hm he
    exact h ⟨m, hm, he.symm⟩

/-- A key that stands among the members' keys has a value. -/
theorem exists_of_mem_keys (h : key ∈ members.map Prod.fst) : ∃ value, (key, value) ∈ members := by
  obtain ⟨⟨_, value⟩, hm, rfl⟩ := List.mem_map.mp h
  exact ⟨value, hm⟩

theorem mem_keys (h : (key, value) ∈ members) : key ∈ members.map Prod.fst :=
  List.mem_map.mpr ⟨_, h, rfl⟩

/-- If one member alone has something to give, then that is all that is given. -/
theorem flatMap_of_mem {β : Type} {f : String × α → List β} (hd : (members.map Prod.fst).Nodup)
    (h : (key, value) ∈ members)
    (hf : ∀ name v, (name, v) ∈ members → name ≠ key → f (name, v) = []) :
    members.flatMap f = f (key, value) := by
  induction members with
  | nil => cases h
  | cons head rest ih =>
    obtain ⟨habsent, hrest⟩ := List.nodup_cons.mp hd
    rw [List.flatMap_cons]
    rcases List.mem_cons.mp h with rfl | h
    · have hnone : rest.flatMap f = [] := by
        refine List.flatMap_eq_nil_iff.mpr fun m hm => hf m.1 m.2 (List.mem_cons_of_mem _ hm) ?_
        exact fun he => habsent (List.mem_map.mpr ⟨m, hm, he⟩)
      rw [hnone, List.append_nil]
    · have hne : head.1 ≠ key := by
        rintro rfl
        exact habsent (mem_keys h)
      rw [hf head.1 head.2 List.mem_cons_self hne, List.nil_append]
      exact ih hrest h fun name v hm => hf name v (List.mem_cons_of_mem _ hm)

/-- Under distinct keys what is made of the members is made of the keys. -/
theorem flatMap_eq_flatMap_keys {β : Type} {f : String × α → List β}
    (hd : (members.map Prod.fst).Nodup) : members.flatMap f =
      (members.map Prod.fst).flatMap fun key =>
        ((members.lookup key).map fun v => f (key, v)).getD [] := by
  rw [List.flatMap_map]
  refine List.flatMap_congr fun m hm => ?_
  rw [lookup_of_mem hd (show (m.1, m.2) ∈ members from hm)]
  rfl

/-- A new key is written at the end. -/
theorem insert_of_not_mem (h : key ∉ members.map Prod.fst) :
    insert key value members = members ++ [(key, value)] := by
  induction members with
  | nil => rfl
  | cons head rest ih =>
    simp only [List.map_cons, List.mem_cons, not_or] at h
    rw [insert, if_neg (Ne.symm h.1), ih h.2, List.cons_append]

/-- Members whose keys are distinct are collected as they are. -/
theorem collect_of_nodup (hd : (members.map Prod.fst).Nodup) : collect members = members := by
  have hkept : ∀ kept : List (String × α), ((kept ++ members).map Prod.fst).Nodup →
      members.foldl (fun kept m => insert m.1 m.2 kept) kept = kept ++ members := by
    clear hd
    induction members with
    | nil => simp
    | cons head rest ih =>
      intro kept hk
      obtain ⟨k, v⟩ := head
      have hnew : k ∉ kept.map Prod.fst := by
        intro hm
        rw [List.map_append, List.nodup_append] at hk
        exact hk.2.2 _ hm _ (by simp) rfl
      have hrest := ih (kept ++ [(k, v)]) (by simpa using hk)
      simp only [List.foldl_cons, insert_of_not_mem hnew, hrest, List.append_assoc,
        List.singleton_append]
  exact hkept [] hd

theorem keys_insert : (insert key value members).map Prod.fst =
    if key ∈ members.map Prod.fst then members.map Prod.fst
    else members.map Prod.fst ++ [key] := by
  induction members with
  | nil => rfl
  | cons head rest ih =>
    obtain ⟨k, v⟩ := head
    by_cases hk : k = key
    · subst hk
      rw [insert, if_pos rfl, if_pos (by simp), List.map_cons, List.map_cons]
    · rw [insert, if_neg hk, List.map_cons, ih, List.map_cons]
      by_cases hm : key ∈ rest.map Prod.fst
      · rw [if_pos hm, if_pos (List.mem_cons_of_mem k hm)]
      · rw [if_neg hm, if_neg (by simp [Ne.symm hk, hm]), List.cons_append]

theorem nodup_keys_insert (h : (members.map Prod.fst).Nodup) :
    ((insert key value members).map Prod.fst).Nodup := by
  rw [keys_insert]
  by_cases hm : key ∈ members.map Prod.fst
  · rwa [if_pos hm]
  · rw [if_neg hm, ← List.concat_eq_append]
    exact h.concat hm

theorem mem_insert {m : String × α} (h : m ∈ insert key value members) :
    m = (key, value) ∨ m ∈ members := by
  induction members with
  | nil => exact .inl (List.mem_singleton.mp h)
  | cons head rest ih =>
    obtain ⟨k, v⟩ := head
    rw [insert] at h
    split at h
    · rcases List.mem_cons.mp h with he | hm
      · exact .inl he
      · exact .inr (List.mem_cons_of_mem _ hm)
    · rcases List.mem_cons.mp h with he | hm
      · exact .inr (he ▸ List.mem_cons_self)
      · rcases ih hm with he | hm
        · exact .inl he
        · exact .inr (List.mem_cons_of_mem _ hm)

/-- What holds of the members collected so far and is kept by writing one more holds
of all members collected. -/
theorem collect_induction {p : List (String × α) → Prop} (hnil : p [])
    (hstep : ∀ kept m, m ∈ members → p kept → p (insert m.1 m.2 kept)) : p (collect members) := by
  have hkept : ∀ rest : List (String × α), rest ⊆ members → ∀ kept, p kept →
      p (rest.foldl (fun kept m => insert m.1 m.2 kept) kept) := by
    intro rest
    induction rest with
    | nil => exact fun _ kept hp => hp
    | cons m rest ih =>
      intro hsub kept hp
      have hm := hsub List.mem_cons_self
      exact ih (fun x hx => hsub (List.mem_cons_of_mem m hx)) _ (hstep kept m hm hp)
  exact hkept members (List.Subset.refl _) [] hnil

/-- Collected members have distinct keys. -/
theorem nodup_keys_collect : ((collect members).map Prod.fst).Nodup :=
  collect_induction (p := fun kept => (kept.map Prod.fst).Nodup) List.nodup_nil
    fun _ _ _ hk => nodup_keys_insert hk

/-- Collecting makes up no member. -/
theorem mem_of_mem_collect {m : String × α} (h : m ∈ collect members) : m ∈ members := by
  revert m
  refine collect_induction (p := fun kept => ∀ {m}, m ∈ kept → m ∈ members) (by simp) ?_
  intro kept m hm hkept x hx
  rcases mem_insert hx with rfl | hx
  · exact hm
  · exact hkept hx

theorem insert_map {β : Type} (f : α → β) :
    insert key (f value) (members.map fun m => (m.1, f m.2)) =
      (insert key value members).map fun m => (m.1, f m.2) := by
  induction members with
  | nil => rfl
  | cons head rest ih =>
    rw [List.map_cons, insert, insert]
    split
    · rw [List.map_cons]
    · rw [List.map_cons, ih]

/-- Values may be changed before or after the members are collected. -/
theorem collect_map {β : Type} (f : α → β) :
    collect (members.map fun m => (m.1, f m.2)) =
      (collect members).map fun m => (m.1, f m.2) := by
  have hkept : ∀ kept : List (String × α),
      (members.map fun m => (m.1, f m.2)).foldl (fun kept m => insert m.1 m.2 kept)
          (kept.map fun m => (m.1, f m.2)) =
        (members.foldl (fun kept m => insert m.1 m.2 kept) kept).map fun m => (m.1, f m.2) := by
    induction members with
    | nil => exact fun _ => rfl
    | cons head rest ih =>
      intro kept
      rw [List.map_cons, List.foldl_cons, List.foldl_cons]
      dsimp only
      rw [insert_map, ih]
  exact hkept []

/-- Every key is kept. -/
theorem mem_keys_collect : key ∈ (collect members).map Prod.fst ↔ key ∈ members.map Prod.fst := by
  have hkept : ∀ kept : List (String × α),
      key ∈ (members.foldl (fun kept m => insert m.1 m.2 kept) kept).map Prod.fst ↔
        key ∈ kept.map Prod.fst ∨ key ∈ members.map Prod.fst := by
    induction members with
    | nil => simp
    | cons head rest ih =>
      intro kept
      rw [List.foldl_cons, ih, keys_insert, List.map_cons, List.mem_cons]
      split
      · next hm =>
        constructor
        · rintro (hk | hk)
          · exact .inl hk
          · exact .inr (.inr hk)
        · rintro (hk | rfl | hk)
          · exact .inl hk
          · exact .inl hm
          · exact .inr hk
      · rw [List.mem_append, List.mem_singleton, or_assoc]
  rw [collect, hkept []]
  simp

/-- Nothing is collected only from nothing. -/
theorem collect_eq_nil_iff : collect members = [] ↔ members = [] := by
  constructor
  · intro h
    cases members with
    | nil => rfl
    | cons head rest =>
      have hk : head.1 ∈ (collect (head :: rest)).map Prod.fst :=
        mem_keys_collect.mpr List.mem_cons_self
      rw [h] at hk
      cases hk
  · rintro rfl
    rfl

/-- The members in their order, each with another value or left out. -/
def revise (change : String → α → Option α) (members : List (String × α)) : List (String × α) :=
  members.filterMap fun m => (change m.1 m.2).map fun v => (m.1, v)

section Revise

variable {change : String → α → Option α}

theorem mem_revise :
    (key, value) ∈ revise change members ↔ ∃ v, (key, v) ∈ members ∧ change key v = some value := by
  rw [revise, List.mem_filterMap]
  constructor
  · rintro ⟨⟨name, v⟩, hm, hv⟩
    obtain ⟨w, hw, he⟩ := Option.map_eq_some_iff.mp hv
    cases he
    exact ⟨v, hm, hw⟩
  · rintro ⟨v, hm, hv⟩
    exact ⟨(key, v), hm, by rw [hv, Option.map_some]⟩

theorem revise_cons {name : String} {v : α} :
    revise change ((name, v) :: members) =
      match change name v with
      | some w => (name, w) :: revise change members
      | none => revise change members := by
  rw [revise, List.filterMap_cons]
  cases change name v <;> simp only <;> rfl

theorem revise_append (more : List (String × α)) :
    revise change (members ++ more) = revise change members ++ revise change more :=
  List.filterMap_append

/-- Members that all keep their values stay as they are. -/
theorem revise_eq_self (h : ∀ name v, (name, v) ∈ members → change name v = some v) :
    revise change members = members := by
  have hkept : revise change members = members.filterMap some :=
    List.filterMap_congr fun m hm => by rw [h m.1 m.2 hm, Option.map_some]
  rw [hkept, List.filterMap_some]

theorem keys_revise : ((revise change members).map Prod.fst).Sublist (members.map Prod.fst) := by
  induction members with
  | nil => exact .slnil
  | cons head rest ih =>
    obtain ⟨name, v⟩ := head
    rw [revise_cons]
    cases change name v with
    | none => exact ih.cons name
    | some w => exact ih.cons_cons name

/-- Under distinct keys every member is found as it is revised. -/
theorem lookup_revise (hd : (members.map Prod.fst).Nodup) :
    (revise change members).lookup key = (members.lookup key).bind (change key) := by
  cases hl : members.lookup key with
  | none =>
    rw [Members.lookup_eq_none_iff] at hl
    rw [Option.bind_none, Members.lookup_eq_none_iff]
    exact fun hm => hl (keys_revise.subset hm)
  | some v =>
    have hm := mem_of_lookup hl
    rw [Option.bind_some]
    cases hv : change key v with
    | some w => exact lookup_of_mem (keys_revise.nodup hd) (mem_revise.mpr ⟨v, hm, hv⟩)
    | none =>
      rw [Members.lookup_eq_none_iff]
      intro hk
      obtain ⟨w, hw⟩ := exists_of_mem_keys hk
      obtain ⟨u, hu, hw⟩ := mem_revise.mp hw
      rw [eq_of_mem hd hu hm, hv] at hw
      cases hw

/-- So is a key that is never left out, under any keys. -/
theorem lookup_revise_of_kept (h : ∀ v, (change key v).isSome = true) :
    (revise change members).lookup key = (members.lookup key).bind (change key) := by
  induction members with
  | nil => rfl
  | cons head rest ih =>
    obtain ⟨name, v⟩ := head
    rw [revise_cons]
    by_cases hname : key = name
    · subst hname
      obtain ⟨w, hw⟩ := Option.isSome_iff_exists.mp (h v)
      rw [hw, List.lookup_cons_self, List.lookup_cons_self, Option.bind_some, hw]
    · have hne : (key == name) = false := beq_eq_false_iff_ne.mpr hname
      rw [List.lookup_cons, hne]
      cases change name v with
      | none => exact ih
      | some w =>
        rw [List.lookup_cons, hne]
        exact ih

end Revise

end Members

/-- The value of a field is a member. -/
theorem mem_of_fieldValue {members : List (String × Json)} {name : String} {v : Json}
    (h : fieldValue members name = some v) : (name, v) ∈ members :=
  Members.mem_of_lookup (Option.filter_eq_some_iff.mp h).1

/-- A member that is not null is the value of its field. -/
theorem fieldValue_of_mem {members : List (String × Json)} (hd : (members.map Prod.fst).Nodup)
    {name : String} {v : Json} (hm : (name, v) ∈ members) (hv : v.isNull = false) :
    fieldValue members name = some v := by
  rw [fieldValue, Members.lookup_of_mem hd hm]
  exact Option.filter_some_pos (by simp [hv])

/-- Related members make related fields, if the relation does not take null for a value. -/
theorem rel_fieldValue {us vs : List (String × Json)} {name : String} {r : Json → Json → Prop}
    (hr : ∀ u v, r u v → u.isNull = v.isNull)
    (h : Option.Rel r (us.lookup name) (vs.lookup name)) :
    Option.Rel r (fieldValue us name) (fieldValue vs name) := by
  unfold fieldValue
  generalize us.lookup name = field at h ⊢
  generalize vs.lookup name = field' at h ⊢
  cases h with
  | none => exact .none
  | @some u v huv =>
    cases hv : v.isNull with
    | true =>
      have hu : u.isNull = true := (hr u v huv).trans hv
      rw [Option.filter_some_neg (by simp [hu]), Option.filter_some_neg (by simp [hv])]
      exact .none
    | false =>
      have hu : u.isNull = false := (hr u v huv).trans hv
      rw [Option.filter_some_pos (by simp [hu]), Option.filter_some_pos (by simp [hv])]
      exact .some huv

/-- The members that hold the values of the declared fields, in the order of the
declarations. -/
def declaredMembers (value : String → Schema → Option Json)
    (properties : List (String × Schema)) : List (String × Json) :=
  properties.filterMap fun p => (value p.1 p.2).map fun v => (p.1, v)

/-- The members of an object with other values for its declared fields. -/
def replaceDeclared (value : String → Schema → Option Json)
    (properties : List (String × Schema)) (members : List (String × Json)) :
    List (String × Json) :=
  Members.collect (declaredMembers value properties) ++ undeclared properties members

section Declared

variable {properties : List (String × Schema)} {members : List (String × Json)}
  {value other : String → Schema → Option Json} {name : String} {node : Schema}

theorem mem_undeclared {v : Json} :
    (name, v) ∈ undeclared properties members ↔
      (name, v) ∈ members ∧ name ∉ properties.map Prod.fst := by
  simp only [undeclared, List.mem_filter, Bool.not_eq_true', List.any_eq_false, beq_iff_eq,
    List.mem_map, not_exists, not_and]

theorem undeclared_append (more : List (String × Json)) :
    undeclared properties (members ++ more) =
      undeclared properties members ++ undeclared properties more :=
  List.filter_append ..

theorem undeclared_undeclared :
    undeclared properties (undeclared properties members) = undeclared properties members := by
  simp only [undeclared, List.filter_filter, Bool.and_self]

theorem undeclared_revise {change : String → Json → Option Json} :
    undeclared properties (Members.revise change members) =
      Members.revise change (undeclared properties members) := by
  rw [undeclared, Members.revise, List.filter_filterMap, undeclared, Members.revise,
    List.filterMap_filter]
  refine List.filterMap_congr fun m _ => ?_
  cases hc : change m.1 m.2 <;> simp [Option.filter]

theorem declaredMembers_cons :
    declaredMembers value ((name, node) :: properties) =
      match value name node with
      | some v => (name, v) :: declaredMembers value properties
      | none => declaredMembers value properties := by
  rw [declaredMembers, List.filterMap_cons]
  cases value name node <;> simp only <;> rfl

/-- Revised values of the declared fields give revised members. -/
theorem revise_declaredMembers {change : String → Json → Option Json} :
    Members.revise change (declaredMembers value properties) =
      declaredMembers (fun name node => (value name node).bind (change name)) properties := by
  rw [Members.revise, declaredMembers, List.filterMap_filterMap, declaredMembers]
  refine List.filterMap_congr fun p _ => ?_
  cases value p.1 p.2 <;> rfl

/-- The key of a declared member is a declared name. -/
theorem mem_of_mem_declaredMembers {v : Json}
    (h : (name, v) ∈ declaredMembers value properties) :
    ∃ node, (name, node) ∈ properties ∧ value name node = some v := by
  obtain ⟨⟨name', node⟩, hm, hv⟩ := List.mem_filterMap.mp h
  obtain ⟨w, hw, he⟩ := Option.map_eq_some_iff.mp hv
  cases he
  exact ⟨node, hm, hw⟩

theorem keys_declaredMembers :
    ((declaredMembers value properties).map Prod.fst).Sublist (properties.map Prod.fst) := by
  induction properties with
  | nil => exact .slnil
  | cons head rest ih =>
    obtain ⟨name, node⟩ := head
    rw [declaredMembers_cons]
    cases value name node with
    | none => exact ih.cons name
    | some v => exact ih.cons_cons name

/-- Distinct keys stay distinct. -/
theorem keys_replaceDeclared (hm : (members.map Prod.fst).Nodup) :
    ((replaceDeclared value properties members).map Prod.fst).Nodup := by
  rw [replaceDeclared, List.map_append, List.nodup_append]
  refine ⟨Members.nodup_keys_collect, (List.filter_sublist.map _).nodup hm, ?_⟩
  rintro key hk _ hu rfl
  obtain ⟨v, hu⟩ := Members.exists_of_mem_keys hu
  exact (mem_undeclared.mp hu).2 (keys_declaredMembers.subset (Members.mem_keys_collect.mp hk))

theorem undeclared_declaredMembers :
    undeclared properties (declaredMembers value properties) = [] := by
  rw [List.eq_nil_iff_forall_not_mem]
  rintro ⟨name, v⟩ h
  obtain ⟨hm, hn⟩ := mem_undeclared.mp h
  exact hn (keys_declaredMembers.subset (Members.mem_keys hm))

variable (hd : (properties.map Prod.fst).Nodup)

include hd

/-- With distinct names nothing is left to collect. -/
theorem replaceDeclared_eq :
    replaceDeclared value properties members =
      declaredMembers value properties ++ undeclared properties members := by
  rw [replaceDeclared, Members.collect_of_nodup (keys_declaredMembers.nodup hd)]

/-- Every declared field holds the value given for it. -/
theorem lookup_declaredMembers (h : (name, node) ∈ properties) :
    (declaredMembers value properties).lookup name = value name node := by
  cases hv : value name node with
  | some v =>
    apply Members.lookup_of_mem (keys_declaredMembers.nodup hd)
    exact List.mem_filterMap.mpr ⟨(name, node), h, by simp [hv]⟩
  | none =>
    rw [Members.lookup_eq_none_iff]
    intro hk
    obtain ⟨v, hm⟩ := Members.exists_of_mem_keys hk
    obtain ⟨node', hm', hv'⟩ := mem_of_mem_declaredMembers hm
    rw [Members.eq_of_mem hd hm' h, hv] at hv'
    cases hv'

theorem lookup_replaceDeclared (h : (name, node) ∈ properties) :
    (replaceDeclared value properties members).lookup name = value name node := by
  have hu : (undeclared properties members).lookup name = none := by
    rw [Members.lookup_eq_none_iff]
    intro hk
    obtain ⟨v, hm⟩ := Members.exists_of_mem_keys hk
    exact (mem_undeclared.mp hm).2 (Members.mem_keys h)
  rw [replaceDeclared_eq hd, List.lookup_append, lookup_declaredMembers hd h, hu, Option.or_none]

theorem mem_replaceDeclared {v : Json} (h : (name, node) ∈ properties) :
    (name, v) ∈ replaceDeclared value properties members ↔ value name node = some v := by
  constructor
  · intro hm
    rw [replaceDeclared_eq hd, List.mem_append] at hm
    rcases hm with hm | hm
    · obtain ⟨other, ho, hv⟩ := mem_of_mem_declaredMembers hm
      rwa [Members.eq_of_mem hd ho h] at hv
    · exact absurd (Members.mem_keys h) (mem_undeclared.mp hm).2
  · intro hv
    exact Members.mem_of_lookup ((lookup_replaceDeclared hd h).trans hv)

/-- An undeclared member is found as before. -/
theorem lookup_replaceDeclared_undeclared (h : name ∉ properties.map Prod.fst) :
    (replaceDeclared value properties members).lookup name = members.lookup name := by
  have hl : (declaredMembers value properties).lookup name = none :=
    Members.lookup_eq_none_iff.mpr fun hm => h (keys_declaredMembers.subset hm)
  have hkept : (!properties.any fun p => p.1 == name) = true := by
    simp only [Bool.not_eq_true', List.any_eq_false, beq_iff_eq]
    exact fun p hp he => h (he ▸ List.mem_map_of_mem hp)
  rw [replaceDeclared_eq hd, List.lookup_append, hl, Option.none_or, undeclared]
  exact Members.lookup_filter fun _ => hkept

/-- A declared field is read back as the value given for it, which must not be
null. -/
theorem fieldValue_replaceDeclared (h : (name, node) ∈ properties)
    (hv : ∀ v, value name node = some v → v.isNull = false) :
    fieldValue (replaceDeclared value properties members) name = value name node := by
  rw [fieldValue, lookup_replaceDeclared hd h]
  cases hs : value name node with
  | none => rfl
  | some v => exact Option.filter_some_pos (by simp [hv v hs])

theorem undeclared_replaceDeclared :
    undeclared properties (replaceDeclared value properties members) =
      undeclared properties members := by
  rw [replaceDeclared_eq hd, undeclared_append, undeclared_declaredMembers,
    undeclared_undeclared, List.nil_append]

/-- Replacing the declared fields twice is replacing them once, with the second
values. -/
theorem replaceDeclared_replaceDeclared :
    replaceDeclared other properties (replaceDeclared value properties members) =
      replaceDeclared other properties members := by
  rw [replaceDeclared, undeclared_replaceDeclared hd, replaceDeclared]

end Declared

/-- Equal values for the declared fields give equal members. -/
theorem replaceDeclared_congr {properties : List (String × Schema)}
    {value other : String → Schema → Option Json} (members : List (String × Json))
    (h : ∀ name node, (name, node) ∈ properties → value name node = other name node) :
    replaceDeclared value properties members = replaceDeclared other properties members := by
  have he : declaredMembers value properties = declaredMembers other properties :=
    List.filterMap_congr fun p hp => by rw [h p.1 p.2 hp]
  rw [replaceDeclared, he, replaceDeclared]

end PipelineConfig
