import Mathlib.Data.List.Nodup
import PipelineConfig.Validation.Path

/-!
# Values inside values

A value is well keyed if no object in it writes a key twice, which is what every
reader of JSON objects ends with. Places inside a value are paths; the height of
a value is the greatest length of such a path.
-/

namespace PipelineConfig.Json

/-- Induction on a value by the values directly inside it. -/
@[elab_as_elim, induction_eliminator]
theorem inductionOn {motive : Json → Prop} (null : motive .null) (bool : ∀ b, motive (.bool b))
    (number : ∀ n, motive (.number n)) (string : ∀ s, motive (.string s))
    (array : ∀ elements, (∀ v ∈ elements, motive v) → motive (.array elements))
    (object : ∀ members, (∀ name v, (name, v) ∈ members → motive v) → motive (.object members)) :
    ∀ v, motive v
  | .null => null
  | .bool b => bool b
  | .number n => number n
  | .string s => string s
  | .array elements => array elements fun v _ =>
      inductionOn null bool number string array object v
  | .object members => object members fun name v hm =>
      have : sizeOf v < sizeOf members := by
        have := List.sizeOf_lt_of_mem hm
        rw [Prod.mk.sizeOf_spec] at this
        omega
      inductionOn null bool number string array object v

/-- No object in the value writes a key twice. -/
inductive WellKeyed : Json → Prop where
  /-- The null value has no keys. -/
  | null : WellKeyed .null
  /-- A truth value has no keys. -/
  | bool (b : Bool) : WellKeyed (.bool b)
  /-- A number has no keys. -/
  | number (n : Number) : WellKeyed (.number n)
  /-- A text has no keys. -/
  | string (s : String) : WellKeyed (.string s)
  /-- An array is well keyed if its elements are. -/
  | array {elements : List Json} : (∀ v ∈ elements, WellKeyed v) → WellKeyed (.array elements)
  /-- An object has distinct keys and well keyed values. -/
  | object {members : List (String × Json)} : (members.map Prod.fst).Nodup →
      (∀ name v, (name, v) ∈ members → WellKeyed v) → WellKeyed (.object members)

mutual

/-- Whether no object in the value writes a key twice. -/
def isWellKeyed : Json → Bool
  | .array elements => allWellKeyed elements
  | .object members => decide (members.map Prod.fst).Nodup && allMembersWellKeyed members
  | _ => true

/-- Whether all elements are well keyed. -/
def allWellKeyed : List Json → Bool
  | [] => true
  | v :: rest => isWellKeyed v && allWellKeyed rest

/-- Whether the values of all members are well keyed. -/
def allMembersWellKeyed : List (String × Json) → Bool
  | [] => true
  | (_, v) :: rest => isWellKeyed v && allMembersWellKeyed rest

end

theorem allWellKeyed_iff {elements : List Json} :
    allWellKeyed elements = true ↔ ∀ v ∈ elements, v.isWellKeyed = true := by
  induction elements with
  | nil => simp [allWellKeyed]
  | cons v rest ih => simp [allWellKeyed, ih]

theorem allMembersWellKeyed_iff {members : List (String × Json)} :
    allMembersWellKeyed members = true ↔
      ∀ name v, (name, v) ∈ members → v.isWellKeyed = true := by
  induction members with
  | nil => simp [allMembersWellKeyed]
  | cons head rest ih =>
    obtain ⟨key, w⟩ := head
    rw [allMembersWellKeyed, Bool.and_eq_true, ih]
    constructor
    · rintro ⟨hw, hrest⟩ name v hm
      rcases List.mem_cons.mp hm with he | hm
      · cases he
        exact hw
      · exact hrest name v hm
    · intro h
      exact ⟨h key w List.mem_cons_self, fun name v hm => h name v (List.mem_cons_of_mem _ hm)⟩

theorem isWellKeyed_iff {v : Json} : v.isWellKeyed = true ↔ v.WellKeyed := by
  induction v with
  | null => exact ⟨fun _ => .null, fun _ => rfl⟩
  | bool b => exact ⟨fun _ => .bool b, fun _ => rfl⟩
  | number n => exact ⟨fun _ => .number n, fun _ => rfl⟩
  | string s => exact ⟨fun _ => .string s, fun _ => rfl⟩
  | array elements ih =>
    rw [isWellKeyed, allWellKeyed_iff]
    constructor
    · intro h
      exact .array fun v hm => (ih v hm).mp (h v hm)
    · intro h v hm
      cases h with
      | array h => exact (ih v hm).mpr (h v hm)
  | object members ih =>
    rw [isWellKeyed, Bool.and_eq_true, decide_eq_true_iff, allMembersWellKeyed_iff]
    constructor
    · rintro ⟨hd, h⟩
      exact .object hd fun name v hm => (ih name v hm).mp (h name v hm)
    · intro h
      cases h with
      | object hd h => exact ⟨hd, fun name v hm => (ih name v hm).mpr (h name v hm)⟩

instance : DecidablePred WellKeyed := fun _ => decidable_of_iff _ isWellKeyed_iff

/-- The path leads from the first value to the second, which lies inside it. -/
inductive Holds : Json → Path → Json → Prop where
  /-- The empty path stays at the value. -/
  | self (v : Json) : Holds v [] v
  /-- Into a member of an object. -/
  | member {members : List (String × Json)} {name : String} {v w : Json} {path : Path} :
      (name, v) ∈ members → Holds v path w → Holds (.object members) (.key name :: path) w
  /-- Into an element of an array. -/
  | element {elements : List Json} {i : Nat} {v w : Json} {path : Path} :
      elements[i]? = some v → Holds v path w → Holds (.array elements) (.index i :: path) w

theorem eq_null_of_isNull {v : Json} (h : v.isNull = true) : v = .null := by
  cases v <;> first | rfl | cases h

/-- Nothing lies inside a null. -/
theorem holds_of_isNull {v u : Json} {path : Path} (hv : v.isNull = true) (h : v.Holds path u) :
    path = [] ∧ u = v := by
  cases h with
  | self => exact ⟨rfl, rfl⟩
  | member | element => cases hv

/-- In a well keyed value a path leads to one value. -/
theorem WellKeyed.eq_of_holds {v u w : Json} {path : Path} (h : v.WellKeyed)
    (hu : v.Holds path u) (hw : v.Holds path w) : u = w := by
  induction hu with
  | self =>
    cases hw
    rfl
  | member hm _ ih =>
    cases h with
    | object hkeys hvalues =>
      cases hw with
      | member hm' hw =>
        have hsame := List.inj_on_of_nodup_map hkeys hm hm' rfl
        cases hsame
        exact ih (hvalues _ _ hm) hw
  | element hv _ ih =>
    cases h with
    | array hvalues =>
      cases hw with
      | element hv' hw =>
        rw [hv] at hv'
        cases hv'
        exact ih (hvalues _ (List.mem_of_getElem? hv)) hw

/-- The value has nothing at the path, or at most a null. -/
def LeavesOut (v : Json) (path : Path) : Prop := ∀ w, v.Holds path w → w.isNull = true

/-- An object leaves out what its member under the name leaves out. -/
theorem leavesOut_member {members : List (String × Json)} {name : String} {path : Path} :
    LeavesOut (.object members) (.key name :: path) ↔
      ∀ v, (name, v) ∈ members → v.LeavesOut path := by
  constructor
  · exact fun h v hm w hw => h w (.member hm hw)
  · intro h w hw
    cases hw with
    | member hm hw => exact h _ hm w hw

theorem leavesOut_element {elements : List Json} {i : Nat} {path : Path} :
    LeavesOut (.array elements) (.index i :: path) ↔
      ∀ v, elements[i]? = some v → v.LeavesOut path := by
  constructor
  · exact fun h v hv w hw => h w (.element hv hw)
  · intro h w hw
    cases hw with
    | element hv hw => exact h _ hv w hw

/-- A null leaves out everything. -/
theorem leavesOut_of_isNull {v : Json} (hv : v.isNull = true) (path : Path) : v.LeavesOut path :=
  fun _ hw => (holds_of_isNull hv hw).2 ▸ hv

theorem heightOfElements_le_iff {elements : List Json} {n : Nat} :
    heightOfElements elements ≤ n ↔ ∀ v ∈ elements, v.height < n := by
  induction elements with
  | nil => simp [heightOfElements]
  | cons v rest ih =>
    rw [heightOfElements, Nat.max_le, ih]
    simp only [List.mem_cons, forall_eq_or_imp, Nat.succ_le_iff]

theorem heightOfMembers_le_iff {members : List (String × Json)} {n : Nat} :
    heightOfMembers members ≤ n ↔ ∀ name v, (name, v) ∈ members → v.height < n := by
  induction members with
  | nil => simp [heightOfMembers]
  | cons head rest ih =>
    obtain ⟨key, w⟩ := head
    rw [heightOfMembers, Nat.max_le, ih]
    constructor
    · rintro ⟨hw, hrest⟩ name v hm
      rcases List.mem_cons.mp hm with he | hm
      · cases he
        exact hw
      · exact hrest name v hm
    · intro h
      exact ⟨h key w List.mem_cons_self, fun name v hm => h name v (List.mem_cons_of_mem _ hm)⟩

/-- A value is no higher than a number exactly if no path inside it is longer. -/
theorem height_le_iff {v : Json} {n : Nat} :
    v.height ≤ n ↔ ∀ path w, v.Holds path w → path.length ≤ n := by
  induction v generalizing n with
  | null | bool | number | string =>
    constructor
    · rintro - path w h
      cases h
      exact Nat.zero_le n
    · intro
      exact Nat.zero_le n
  | array elements ih =>
    rw [height, heightOfElements_le_iff]
    constructor
    · rintro h path w hw
      cases hw with
      | self => exact Nat.zero_le n
      | element hv hw =>
        have hm := List.mem_of_getElem? hv
        have hn := h _ hm
        have hlen := (ih _ hm (n := n - 1)).mp (by omega) _ _ hw
        simp only [List.length_cons]
        omega
    · intro h v hm
      obtain ⟨i, hi⟩ := List.getElem?_of_mem hm
      have hpos := h _ _ (.element hi (.self v))
      simp only [List.length_cons, List.length_nil] at hpos
      have hv : v.height ≤ n - 1 := (ih v hm).mpr fun path w hw => by
        have hlen := h _ _ (.element hi hw)
        simp only [List.length_cons] at hlen
        omega
      omega
  | object members ih =>
    rw [height, heightOfMembers_le_iff]
    constructor
    · rintro h path w hw
      cases hw with
      | self => exact Nat.zero_le n
      | member hm hw =>
        have hn := h _ _ hm
        have hlen := (ih _ _ hm (n := n - 1)).mp (by omega) _ _ hw
        simp only [List.length_cons]
        omega
    · intro h name v hm
      have hpos := h _ _ (.member hm (.self v))
      simp only [List.length_cons, List.length_nil] at hpos
      have hv : v.height ≤ n - 1 := (ih name v hm).mpr fun path w hw => by
        have hlen := h _ _ (.member hm hw)
        simp only [List.length_cons] at hlen
        omega
      omega

/-- A value that reaches further than some bound holds a value beyond it. -/
theorem exists_holds_beyond {v : Json} {depth bound : Nat} (h : bound < depth + v.height) :
    ∃ path w, v.Holds path w ∧ bound < depth + path.length := by
  rcases Nat.lt_or_ge bound depth with hroot | hroot
  · exact ⟨[], v, .self v, by simpa using hroot⟩
  · have hheight : ¬ v.height ≤ bound - depth := by omega
    rw [height_le_iff] at hheight
    obtain ⟨path, hheight⟩ := Classical.not_forall.mp hheight
    obtain ⟨w, hheight⟩ := Classical.not_forall.mp hheight
    obtain ⟨hw, hlong⟩ := Classical.not_imp.mp hheight
    exact ⟨path, w, hw, by omega⟩

end PipelineConfig.Json
