import PipelineConfig.Proofs.NumberTexts
import PipelineConfig.Proofs.Values

/-!
# Values are read back

A value is read back from its compact text unless one of three things is in the way: its
containers nest deeper than is read, an object repeats a key, or a number is not read from a
text of its own. Integers of 64 bits always are; floating-point numbers may not be, as they
are not read exactly.
-/

namespace PipelineConfig.Json

/-- The value can be read back from its text, with at most so many containers open at once. -/
inductive Legible : Nat → Json → Prop where
  /-- The null value is legible. -/
  | null {budget : Nat} : Legible budget .null
  /-- A truth value is legible. -/
  | bool {budget : Nat} (b : Bool) : Legible budget (.bool b)
  /-- An integer of 64 bits is legible. -/
  | integer {budget : Nat} {n : Int} : -2 ^ 63 ≤ n → n < 2 ^ 64 →
      Legible budget (.number (.integer n))
  /-- A floating-point number is legible if it is what its text is read as. -/
  | float {budget : Nat} {x : Binary64} :
      Reader.valueAround none x.text.toList = .ok (.number (.float x), []) →
      Legible budget (.number (.float x))
  /-- A text is legible. -/
  | string {budget : Nat} (s : String) : Legible budget (.string s)
  /-- An array is legible if its elements are. -/
  | array {budget : Nat} {elements : List Json} : (∀ v ∈ elements, Legible budget v) →
      Legible (budget + 1) (.array elements)
  /-- An object is legible if its keys are distinct and its values legible. -/
  | object {budget : Nat} {members : List (String × Json)} : (members.map Prod.fst).Nodup →
      (∀ m ∈ members, Legible budget m.2) → Legible (budget + 1) (.object members)

section Checking

/-- Whether the floating-point number is what its text is read as. -/
def isReadAsItself (x : Binary64) : Bool :=
  match Reader.valueAround none x.text.toList with
  | .ok (.number (.float y), []) => y = x
  | _ => false

theorem isReadAsItself_iff {x : Binary64} : isReadAsItself x = true ↔
    Reader.valueAround none x.text.toList = .ok (.number (.float x), []) := by
  rw [isReadAsItself]
  constructor
  · intro h
    split at h
    · next y hread => rw [hread, of_decide_eq_true h]
    · cases h
  · intro h
    rw [h]
    exact decide_eq_true rfl

mutual

/-- Whether the value can be read back with so many containers open at once. -/
def isLegible : Json → Nat → Bool
  | .null, _ | .bool _, _ | .string _, _ => true
  | .number (.integer n), _ => decide (-2 ^ 63 ≤ n) && decide (n < 2 ^ 64)
  | .number (.float x), _ => isReadAsItself x
  | .array elements, budget => decide (0 < budget) && allLegible elements (budget - 1)
  | .object members, budget => decide (0 < budget) && decide (members.map Prod.fst).Nodup &&
      allMembersLegible members (budget - 1)

/-- Whether all elements can be read back. -/
def allLegible : List Json → Nat → Bool
  | [], _ => true
  | v :: rest, budget => isLegible v budget && allLegible rest budget

/-- Whether the values of all members can be read back. -/
def allMembersLegible : List (String × Json) → Nat → Bool
  | [], _ => true
  | (_, v) :: rest, budget => isLegible v budget && allMembersLegible rest budget

end

theorem allLegible_iff {elements : List Json} {budget : Nat} :
    allLegible elements budget = true ↔ ∀ v ∈ elements, v.isLegible budget = true := by
  induction elements with
  | nil => simp [allLegible]
  | cons v rest ih => simp [allLegible, ih]

theorem allMembersLegible_iff {members : List (String × Json)} {budget : Nat} :
    allMembersLegible members budget = true ↔ ∀ m ∈ members, m.2.isLegible budget = true := by
  induction members with
  | nil => simp [allMembersLegible]
  | cons m rest ih =>
    rw [allMembersLegible, Bool.and_eq_true, ih]
    exact (List.forall_mem_cons (p := fun m : String × Json => m.2.isLegible budget)).symm

theorem isLegible_iff {v : Json} {budget : Nat} :
    v.isLegible budget = true ↔ v.Legible budget := by
  induction v generalizing budget with
  | null => exact ⟨fun _ => .null, fun _ => rfl⟩
  | bool b => exact ⟨fun _ => .bool b, fun _ => rfl⟩
  | string s => exact ⟨fun _ => .string s, fun _ => rfl⟩
  | number n =>
    cases n with
    | integer n =>
      rw [isLegible, Bool.and_eq_true, decide_eq_true_iff, decide_eq_true_iff]
      constructor
      · exact fun h => .integer h.1 h.2
      · intro h
        cases h with
        | integer hlow hhigh => exact ⟨hlow, hhigh⟩
    | float x =>
      rw [isLegible, isReadAsItself_iff]
      constructor
      · exact .float
      · intro h
        cases h with
        | float hread => exact hread
  | array elements ih =>
    rw [isLegible, Bool.and_eq_true, decide_eq_true_iff, allLegible_iff]
    constructor
    · rintro ⟨hbudget, h⟩
      obtain ⟨budget, rfl⟩ := Nat.exists_eq_add_one.mpr hbudget
      exact .array fun v hm => (ih v hm).mp (h v hm)
    · intro h
      cases h with
      | array h => exact ⟨Nat.zero_lt_succ _, fun v hm => (ih v hm).mpr (h v hm)⟩
  | object members ih =>
    rw [isLegible, Bool.and_eq_true, Bool.and_eq_true, decide_eq_true_iff, decide_eq_true_iff,
      allMembersLegible_iff]
    constructor
    · rintro ⟨⟨hbudget, hd⟩, h⟩
      obtain ⟨budget, rfl⟩ := Nat.exists_eq_add_one.mpr hbudget
      exact .object hd fun m hm => (ih m.1 m.2 hm).mp (h m hm)
    · intro h
      cases h with
      | object hd h =>
        exact ⟨⟨Nat.zero_lt_succ _, hd⟩, fun m hm => (ih m.1 m.2 hm).mpr (h m hm)⟩

instance (budget : Nat) (v : Json) : Decidable (v.Legible budget) :=
  decidable_of_iff _ isLegible_iff

end Checking

/-- Every character is read back from its escape. -/
theorem spells_escape (c : Char) : Reader.Spells (escape c) c := by
  unfold escape
  split
  iterate 7 exact Reader.spells_letter rfl
  · next hquote hbackslash _ _ _ _ _ =>
    split
    · next hcontrol => exact Reader.spells_code (by omega)
    · next hplain => exact Reader.spells_plain (by omega) hquote hbackslash

theorem textOfElements_eq (elements : List Json) : textOfElements elements = elements.map text := by
  induction elements with
  | nil => rfl
  | cons v rest ih => rw [textOfElements, ih, List.map_cons]

theorem textOfMembers_eq (members : List (String × Json)) :
    textOfMembers members = members.map (Reader.memberOf escape text) := by
  induction members with
  | nil => rfl
  | cons head rest ih =>
    rw [textOfMembers, ih, List.map_cons]
    rfl

/-- A legible value is read back wherever its text ends. -/
theorem Legible.readsBack {v : Json} {budget : Nat} (h : v.Legible budget) :
    (Reader.value budget).ReadsBack v.text v := by
  induction h with
  | null =>
    intro rest _
    obtain ⟨inner, hinner⟩ := Reader.exists_valueAround _
    rw [hinner]
    rfl
  | bool b =>
    intro rest _
    obtain ⟨inner, hinner⟩ := Reader.exists_valueAround _
    rw [hinner]
    cases b <;> rfl
  | @integer budget m hlow hhigh =>
    exact Reader.readsBack_number (n := .integer m) (Reader.takes_integer hlow hhigh) budget
  | @float budget x hread => exact Reader.readsBack_number (n := .float x) hread budget
  | string s => exact Reader.readsBack_string spells_escape _ s
  | @array budget elements _ ih =>
    have harray : (Reader.value (budget + 1)).ReadsBack
        ("[" ++ ",".intercalate (elements.map text) ++ "]") (.array (elements.map id)) :=
      Reader.readsBack_array budget ih
    rwa [List.map_id, ← textOfElements_eq] at harray
  | @object budget members hd _ ih =>
    have hobject : (Reader.value (budget + 1)).ReadsBack
        ("\x7b" ++ ",".intercalate (members.map (Reader.memberOf escape text)) ++ "\x7d")
        (.object (members.map fun m => (m.1, id m.2))) :=
      Reader.readsBack_object spells_escape budget hd ih
    have hmembers : (members.map fun m => (m.1, id m.2)) = members := List.map_id members
    rwa [← textOfMembers_eq, hmembers] at hobject

/-- A legible value is read from the line that its text makes. -/
theorem Legible.parse_line {v : Json} (h : v.Legible maxNesting) :
    parse (v.text ++ "\n") = .ok v := by
  have htakes := h.readsBack ['\n'] (Reader.ends_cons (by decide) [])
  have htext : (v.text ++ "\n").toList = v.text.toList ++ ['\n'] := String.toList_append
  rw [← htext] at htakes
  exact htakes.run rfl

end PipelineConfig.Json
