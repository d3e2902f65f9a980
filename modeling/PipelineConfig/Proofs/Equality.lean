import PipelineConfig.Proofs.Members
import PipelineConfig.Proofs.Values
import Mathlib.Data.List.Perm.Subperm

/-!
# Sameness of values

Objects are the same if they hold the same members in any order. For objects with
distinct keys this says that every key has the same value in both, or a value in
neither. On well keyed values sameness is an equivalence, and is equality up to the order
of members.
-/

namespace PipelineConfig

theorem Number.same_refl (n : Number) : n.same n = true := by
  cases n with
  | integer n => exact beq_self_eq_true n
  | float x => exact beq_self_eq_true x.order

/-- The same numbers are the same as any other. -/
theorem Number.same_congr {m n : Number} (h : m.same n = true) (other : Number) :
    m.same other = n.same other := by
  cases m <;> cases n <;> first | cases h | skip
  · rw [eq_of_beq h]
  · cases other with
    | integer => rfl
    | float x =>
      rw [same, Binary64.same, eq_of_beq h]
      rfl

namespace Json

/-- Two fields have the same value, or neither has one. -/
def SameField : Option Json → Option Json → Prop := Option.Rel fun u v => u.same v = true

theorem sameElements_iff {us vs : List Json} :
    sameElements us vs = true ↔ List.Forall₂ (fun u v => u.same v = true) us vs := by
  induction us generalizing vs with
  | nil => cases vs <;> simp [sameElements]
  | cons u us ih =>
    cases vs with
    | nil => simp [sameElements]
    | cons v vs => rw [sameElements, Bool.and_eq_true, ih, List.forall₂_cons]

theorem sameMembers_iff {us vs : List (String × Json)} :
    sameMembers us vs = true ↔
      ∀ key u, (key, u) ∈ us → ∃ v, vs.lookup key = some v ∧ u.same v = true := by
  induction us with
  | nil => simp [sameMembers]
  | cons head rest ih =>
    obtain ⟨name, w⟩ := head
    rw [sameMembers, Bool.and_eq_true, ih]
    constructor
    · intro h key u hm
      rcases List.mem_cons.mp hm with he | hm
      · cases he
        have hhead := h.1
        cases hl : vs.lookup name with
        | none =>
          rw [hl] at hhead
          cases hhead
        | some v =>
          rw [hl] at hhead
          exact ⟨v, rfl, hhead⟩
      · exact h.2 key u hm
    · intro h
      obtain ⟨v, hv, hs⟩ := h name w List.mem_cons_self
      rw [hv]
      exact ⟨hs, fun key u hm => h key u (List.mem_cons_of_mem _ hm)⟩

section Objects

variable {us vs : List (String × Json)}

/-- Objects whose members are the same have the same keys, in some order. -/
theorem keys_perm_of_sameMembers (hu : (us.map Prod.fst).Nodup)
    (hlen : us.length = vs.length) (h : sameMembers us vs = true) :
    (us.map Prod.fst).Perm (vs.map Prod.fst) := by
  have hsubset : us.map Prod.fst ⊆ vs.map Prod.fst := by
    intro key hk
    obtain ⟨u, hm⟩ := Members.exists_of_mem_keys hk
    obtain ⟨v, hv, -⟩ := sameMembers_iff.mp h key u hm
    exact Members.mem_keys (Members.mem_of_lookup hv)
  apply (List.subperm_of_subset hu hsubset).perm_of_length_le
  exact Nat.le_of_eq (by rw [List.length_map, List.length_map, hlen])

/-- Objects whose fields are the same have the same keys. -/
theorem mem_keys_iff_of_sameField (h : ∀ key, SameField (us.lookup key) (vs.lookup key))
    (key : String) : key ∈ us.map Prod.fst ↔ key ∈ vs.map Prod.fst := by
  have hfield := h key
  rw [← not_iff_not, ← Members.lookup_eq_none_iff, ← Members.lookup_eq_none_iff]
  generalize us.lookup key = u at hfield ⊢
  generalize vs.lookup key = v at hfield ⊢
  cases hfield with
  | none => exact Iff.rfl
  | some hs => simp

/-- Under distinct keys objects are the same exactly if their fields are. -/
theorem same_object_iff (hu : (us.map Prod.fst).Nodup) (hv : (vs.map Prod.fst).Nodup) :
    (object us).same (object vs) = true ↔ ∀ key, SameField (us.lookup key) (vs.lookup key) := by
  rw [same, Bool.and_eq_true, beq_iff_eq]
  constructor
  · intro h key
    have hperm := keys_perm_of_sameMembers hu h.1 h.2
    cases hl : us.lookup key with
    | some u =>
      obtain ⟨v, hv, hs⟩ := sameMembers_iff.mp h.2 key u (Members.mem_of_lookup hl)
      rw [hv]
      exact .some hs
    | none =>
      have hnone : vs.lookup key = none := by
        rw [Members.lookup_eq_none_iff] at hl ⊢
        exact fun hm => hl (hperm.mem_iff.mpr hm)
      rw [hnone]
      exact .none
  · intro h
    have hkeys := mem_keys_iff_of_sameField h
    have hlen := ((List.perm_ext_iff_of_nodup hu hv).mpr hkeys).length_eq
    rw [List.length_map, List.length_map] at hlen
    refine ⟨hlen, sameMembers_iff.mpr fun key u hm => ?_⟩
    have hfield := h key
    rw [Members.lookup_of_mem hu hm] at hfield
    cases hl : vs.lookup key with
    | none =>
      rw [hl] at hfield
      cases hfield
    | some v =>
      rw [hl] at hfield
      cases hfield with
      | some hs => exact ⟨v, rfl, hs⟩

end Objects

/-- A well keyed value is the same as itself. -/
theorem WellKeyed.same_refl {v : Json} (h : v.WellKeyed) : v.same v = true := by
  induction h with
  | null => rfl
  | bool b => exact beq_self_eq_true b
  | number n => exact n.same_refl
  | string s => exact beq_self_eq_true s
  | array _ ih =>
    rw [same, sameElements_iff]
    exact List.forall₂_same.mpr ih
  | object hd _ ih =>
    refine (same_object_iff hd hd).mpr fun key => ?_
    cases hl : List.lookup key _ with
    | none => exact .none
    | some v => exact .some (ih key v (Members.mem_of_lookup hl))

/-- Arrays of the same elements are the same as any other, if that is so of the elements. -/
theorem forall₂_same_congr {us vs ws : List Json}
    (h : List.Forall₂ (fun u v => u.same v = true) us vs)
    (hc : ∀ u ∈ us, ∀ v ∈ vs, ∀ w ∈ ws, u.same v = true → u.same w = v.same w) :
    List.Forall₂ (fun u w => u.same w = true) us ws ↔
      List.Forall₂ (fun v w => v.same w = true) vs ws := by
  induction h generalizing ws with
  | nil => exact Iff.rfl
  | @cons u v us vs hs _ ih =>
    cases ws with
    | nil => simp only [List.forall₂_nil_right_iff, reduceCtorEq]
    | cons w ws =>
      rw [List.forall₂_cons, List.forall₂_cons,
        hc u List.mem_cons_self v List.mem_cons_self w List.mem_cons_self hs]
      refine and_congr_right fun _ => ih fun u hu v hv w hw => ?_
      exact hc u (List.mem_cons_of_mem _ hu) v (List.mem_cons_of_mem _ hv) w
        (List.mem_cons_of_mem _ hw)

/-- Fields of the same value are the same as any other, if that is so of the values. -/
theorem SameField.congr {a b c : Option Json} (h : SameField a b)
    (hc : ∀ u ∈ a, ∀ v ∈ b, ∀ w ∈ c, u.same v = true → u.same w = v.same w) :
    SameField a c ↔ SameField b c := by
  cases h with
  | none => exact Iff.rfl
  | some hs =>
    cases c with
    | none => exact ⟨nofun, nofun⟩
    | some w => rw [SameField, Option.rel_some_some, Option.rel_some_some, hc _ rfl _ rfl w rfl hs]

/-- The same values are the same as any other, if all are well keyed. -/
theorem WellKeyed.same_congr {u v w : Json} (hu : u.WellKeyed) (hv : v.WellKeyed)
    (hw : w.WellKeyed) (h : u.same v = true) : u.same w = v.same w := by
  induction hu generalizing v w with
  | null | bool | string =>
    cases hv <;> first | cases h | skip
    all_goals first | rfl | (cases eq_of_beq h; rfl)
  | number n =>
    cases hv <;> first | cases h | skip
    cases w with
    | number other => exact Number.same_congr h other
    | _ => rfl
  | @array us hus ih =>
    cases hv <;> first | cases h | skip
    next vs hvs =>
    cases hw with
    | @array ws hws =>
      rw [Bool.eq_iff_iff, same, same, sameElements_iff, sameElements_iff]
      rw [same, sameElements_iff] at h
      exact forall₂_same_congr h fun u hu v hv w hw hs => ih u hu (hvs v hv) (hws w hw) hs
    | _ => rfl
  | @object us hukeys hus ih =>
    cases hv <;> first | cases h | skip
    next vs hvkeys hvs =>
    cases hw with
    | @object ws hwkeys hws =>
      rw [Bool.eq_iff_iff, same_object_iff hukeys hwkeys, same_object_iff hvkeys hwkeys]
      rw [same_object_iff hukeys hvkeys] at h
      refine forall_congr' fun key => (h key).congr fun u hu v hv w hw hs => ?_
      exact ih key u (Members.mem_of_lookup hu) (hvs key v (Members.mem_of_lookup hv))
        (hws key w (Members.mem_of_lookup hw)) hs
    | _ => rfl

/-- On well keyed values sameness is an equivalence. -/
theorem equivalence_same {p : Json → Prop} (hp : ∀ v, p v → v.WellKeyed) :
    Equivalence fun u v : {v // p v} => u.1.same v.1 = true where
  refl u := (hp _ u.2).same_refl
  symm {u v} h := by
    rw [← (hp _ u.2).same_congr (hp _ v.2) (hp _ u.2) h]
    exact (hp _ u.2).same_refl
  trans {u v w} huv hvw := by
    rw [(hp _ u.2).same_congr (hp _ v.2) (hp _ w.2) huv]
    exact hvw

/-- Values are equal up to the order of members. Numbers are equal only within a kind, and the
two zeros among floating-point numbers are. -/
inductive Equal : Json → Json → Prop where
  /-- The null value equals itself. -/
  | null : Equal .null .null
  /-- A truth value equals itself. -/
  | bool (b : Bool) : Equal (.bool b) (.bool b)
  /-- An integer equals itself. -/
  | integer (n : Int) : Equal (.number (.integer n)) (.number (.integer n))
  /-- A floating-point number equals itself. -/
  | float (x : Binary64) : Equal (.number (.float x)) (.number (.float x))
  /-- A zero equals the other one. -/
  | zero (x y : Binary64) : x.rank = 0 → y.rank = 0 →
      Equal (.number (.float x)) (.number (.float y))
  /-- A text equals itself. -/
  | string (s : String) : Equal (.string s) (.string s)
  /-- Arrays are equal if they have equal elements in one order. -/
  | array {us vs : List Json} : us.length = vs.length →
      (∀ (i : Nat) (u v : Json), us[i]? = some u → vs[i]? = some v → Equal u v) →
      Equal (.array us) (.array vs)
  /-- Objects are equal if they have equal values under the same keys. -/
  | object {us vs : List (String × Json)} :
      (∀ key, key ∈ us.map Prod.fst ↔ key ∈ vs.map Prod.fst) →
      (∀ key u v, (key, u) ∈ us → (key, v) ∈ vs → Equal u v) →
      Equal (.object us) (.object vs)

theorem same_float_iff {x y : Binary64} : x.same y = true ↔ x = y ∨ x.rank = 0 ∧ y.rank = 0 := by
  obtain ⟨xnegative, xrank, hx⟩ := x
  obtain ⟨ynegative, yrank, hy⟩ := y
  rw [Binary64.same, Binary64.order, Binary64.order, beq_iff_eq, Binary64.mk.injEq]
  dsimp only
  cases xnegative <;> cases ynegative <;> simp <;> omega

theorem same_number_iff {m n : Number} : m.same n = true ↔ Equal (.number m) (.number n) := by
  constructor
  · intro h
    cases m <;> cases n <;> first | cases h | skip
    · cases eq_of_beq h
      exact .integer _
    · obtain rfl | ⟨hx, hy⟩ := same_float_iff.mp h
      · exact .float _
      · exact .zero _ _ hx hy
  · intro h
    cases h with
    | integer | float => exact Number.same_refl _
    | zero x y hx hy => exact same_float_iff.mpr (.inr ⟨hx, hy⟩)

/-- Arrays of the same elements are equal, if that is so of the elements. -/
theorem forall₂_same_iff {us vs : List Json}
    (h : ∀ u ∈ us, ∀ v ∈ vs, u.same v = true ↔ u.Equal v) :
    List.Forall₂ (fun u v => u.same v = true) us vs ↔ Equal (.array us) (.array vs) := by
  rw [List.forall₂_iff_get]
  constructor
  · rintro ⟨hlen, hall⟩
    refine .array hlen fun i u v hu hv => ?_
    obtain ⟨hi, rfl⟩ := List.getElem?_eq_some_iff.mp hu
    obtain ⟨hj, rfl⟩ := List.getElem?_eq_some_iff.mp hv
    exact (h _ (List.getElem_mem hi) _ (List.getElem_mem hj)).mp (hall i hi hj)
  · intro hequal
    cases hequal with
    | array hlen hall =>
      refine ⟨hlen, fun i hi hj => (h _ (List.getElem_mem hi) _ (List.getElem_mem hj)).mpr ?_⟩
      exact hall i _ _ (List.getElem?_eq_getElem hi) (List.getElem?_eq_getElem hj)

/-- Objects whose fields are the same are equal, if that is so of the values. -/
theorem sameFields_iff {us vs : List (String × Json)} (hu : (us.map Prod.fst).Nodup)
    (hv : (vs.map Prod.fst).Nodup)
    (h : ∀ key u v, (key, u) ∈ us → (key, v) ∈ vs → (u.same v = true ↔ u.Equal v)) :
    (∀ key, SameField (us.lookup key) (vs.lookup key)) ↔ Equal (.object us) (.object vs) := by
  constructor
  · intro hsame
    refine .object (mem_keys_iff_of_sameField hsame) fun key u v hmu hmv => ?_
    have hfield := hsame key
    rw [Members.lookup_of_mem hu hmu, Members.lookup_of_mem hv hmv] at hfield
    cases hfield with
    | some hs => exact (h key u v hmu hmv).mp hs
  · intro hequal key
    cases hequal with
    | object hkeys hvalues =>
      cases hl : us.lookup key with
      | none =>
        have hnone : vs.lookup key = none := by
          rw [Members.lookup_eq_none_iff] at hl ⊢
          exact fun hm => hl ((hkeys key).mpr hm)
        rw [hnone]
        exact .none
      | some u =>
        have hmu := Members.mem_of_lookup hl
        obtain ⟨v, hmv⟩ := Members.exists_of_mem_keys ((hkeys key).mp (Members.mem_keys hmu))
        rw [Members.lookup_of_mem hv hmv]
        exact .some ((h key u v hmu hmv).mpr (hvalues key u v hmu hmv))

/-- On well keyed values sameness is equality. -/
theorem WellKeyed.same_iff_equal {u v : Json} (hu : u.WellKeyed) (hv : v.WellKeyed) :
    u.same v = true ↔ u.Equal v := by
  induction hu generalizing v with
  | null =>
    cases hv with
    | null => exact ⟨fun _ => .null, fun _ => rfl⟩
    | _ => exact ⟨nofun, nofun⟩
  | bool b =>
    cases hv with
    | bool c =>
      constructor
      · intro h
        cases eq_of_beq h
        exact .bool b
      · intro h
        cases h
        exact beq_self_eq_true b
    | _ => exact ⟨nofun, nofun⟩
  | string s =>
    cases hv with
    | string t =>
      constructor
      · intro h
        cases eq_of_beq h
        exact .string s
      · intro h
        cases h
        exact beq_self_eq_true s
    | _ => exact ⟨nofun, nofun⟩
  | number n =>
    cases hv with
    | number m => exact same_number_iff
    | _ => exact ⟨nofun, nofun⟩
  | array hus ih =>
    cases hv with
    | array hvs =>
      rw [same, sameElements_iff]
      exact forall₂_same_iff fun u hu v hv => ih u hu (hvs v hv)
    | _ => exact ⟨nofun, nofun⟩
  | object hukeys hus ih =>
    cases hv with
    | object hvkeys hvs =>
      rw [same_object_iff hukeys hvkeys]
      exact sameFields_iff hukeys hvkeys fun key u v hu hv => ih key u hu (hvs key v hv)
    | _ => exact ⟨nofun, nofun⟩

theorem isNull_eq_of_same {u v : Json} (h : u.same v = true) : u.isNull = v.isNull := by
  cases u <;> cases v <;> first | rfl | cases h

/-- Same values are objects both or neither. -/
theorem admits_object_eq_of_same {u v : Json} (h : u.same v = true) :
    Kind.object.admits u = Kind.object.admits v := by
  cases u <;> cases v <;> first | rfl | cases h

theorem admits_array_eq_of_same {u v : Json} (h : u.same v = true) :
    Kind.array.admits u = Kind.array.admits v := by
  cases u <;> cases v <;> first | rfl | cases h

/-- Fields that count as left out when null are still the same. -/
theorem sameField_fieldValue {us vs : List (String × Json)} {name : String}
    (h : SameField (us.lookup name) (vs.lookup name)) :
    SameField (fieldValue us name) (fieldValue vs name) :=
  rel_fieldValue (fun _ _ hs => isNull_eq_of_same hs) h

end Json

end PipelineConfig
