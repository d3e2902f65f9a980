import PipelineConfig.Proofs.Members

/-!
# Values without what lies at a path

What lies at a path can be taken out of a value: a member goes with its key, and an element
leaves a null, so that those after it keep their places. Two values that are equal without
it differ there alone. At every step of the path they are objects or arrays both, and
have the same members or elements but for the one that the path leads to.
-/

namespace PipelineConfig

namespace Json

/-- What is left of a value without what lies at a path: nothing if that is the value
itself, an object without the member, and an array with a null for the element. -/
def without : Json → Path → Option Json
  | _, [] => none
  | .object members, .key name :: path =>
    some (.object
      (Members.revise (fun key v => if key = name then v.without path else some v) members))
  | .array elements, .index i :: path =>
    some (.array (elements.modify i fun v => (v.without path).getD .null))
  | v, _ :: _ => some v

variable {u v : Json} {step : Step} {path : Path}

theorem without_nil : v.without [] = none := by cases v <;> rfl

theorem isSome_without (v : Json) (step : Step) (path : Path) :
    (v.without (step :: path)).isSome = true := by
  cases v <;> cases step <;> rfl

/-- A path that takes a step leaves something of the value. -/
theorem exists_without (v : Json) (step : Step) (path : Path) :
    ∃ w, v.without (step :: path) = some w :=
  Option.isSome_iff_exists.mp (isSome_without v step path)

/-- What is left of a value is null only if the value is. -/
theorem isNull_of_without (h : v.without path = some u) : u.isNull = v.isNull := by
  cases path with
  | nil =>
    rw [without_nil] at h
    cases h
  | cons step path => cases v <;> cases step <;> cases h <;> rfl

theorem isNull_eq_of_without (h : u.without (step :: path) = v.without (step :: path)) :
    u.isNull = v.isNull := by
  obtain ⟨w, hw⟩ := exists_without u step path
  rw [← isNull_of_without hw, isNull_of_without (h.symm.trans hw)]

/-- The members without what lies at the path below one of them. -/
def withoutMember (name : String) (path : Path) (members : List (String × Json)) :
    List (String × Json) :=
  Members.revise (fun key v => if key = name then v.without path else some v) members

/-- The elements without what lies at the path below one of them. -/
def withoutElement (i : Nat) (path : Path) (elements : List Json) : List Json :=
  elements.modify i fun v => (v.without path).getD .null

theorem without_key {members : List (String × Json)} {name : String} :
    (object members).without (.key name :: path) =
      some (.object (withoutMember name path members)) := rfl

theorem without_index {elements : List Json} {i : Nat} :
    (array elements).without (.index i :: path) =
      some (.array (withoutElement i path elements)) := rfl

/-- Two values differ at the end of the path alone if they are equal, or have one type and
differ there alone below one member or one element. -/
theorem without_eq_cases (h : u.without (step :: path) = v.without (step :: path)) :
    u = v ∨
    (∃ name us vs, step = .key name ∧ u = .object us ∧ v = .object vs ∧
      withoutMember name path us = withoutMember name path vs) ∨
    ∃ i us vs, step = .index i ∧ u = .array us ∧ v = .array vs ∧
      withoutElement i path us = withoutElement i path vs := by
  cases step with
  | key name =>
    cases u with
    | object us =>
      cases v with
      | object vs =>
        rw [without_key, without_key] at h
        exact .inr (.inl ⟨name, us, vs, rfl, rfl, rfl, object.inj (Option.some.inj h)⟩)
      | _ => cases h
    | _ => cases v <;> first | exact .inl (Option.some.inj h) | cases h
  | index i =>
    cases u with
    | array us =>
      cases v with
      | array vs =>
        rw [without_index, without_index] at h
        exact .inr (.inr ⟨i, us, vs, rfl, rfl, rfl, array.inj (Option.some.inj h)⟩)
      | _ => cases h
    | _ => cases v <;> first | exact .inl (Option.some.inj h) | cases h

section Members

variable {us vs : List (String × Json)} {name : String}

theorem withoutMember_append (more : List (String × Json)) :
    withoutMember name path (us ++ more) =
      withoutMember name path us ++ withoutMember name path more :=
  Members.revise_append more

theorem withoutMember_undeclared {properties : List (String × Schema)} :
    withoutMember name path (undeclared properties us) =
      undeclared properties (withoutMember name path us) :=
  undeclared_revise.symm

/-- A member off the path is found in both, or in neither. -/
theorem lookup_eq_of_withoutMember {key : String} (hkey : key ≠ name)
    (h : withoutMember name path us = withoutMember name path vs) :
    us.lookup key = vs.lookup key := by
  have hkept : ∀ members : List (String × Json),
      (withoutMember name path members).lookup key = members.lookup key := by
    intro members
    rw [withoutMember, Members.lookup_revise_of_kept fun v => by rw [if_neg hkey]; rfl]
    simp only [if_neg hkey, Option.bind_fun_some]
  rw [← hkept us, h, hkept vs]

/-- The member on the path is found in both, or in neither, and differs at its end alone. -/
theorem lookup_without_of_withoutMember
    (h : withoutMember name (step :: path) us = withoutMember name (step :: path) vs) :
    Option.Rel (fun u v => u.without (step :: path) = v.without (step :: path))
      (us.lookup name) (vs.lookup name) := by
  have hkept : ∀ members : List (String × Json),
      (withoutMember name (step :: path) members).lookup name =
        (members.lookup name).bind (·.without (step :: path)) := by
    intro members
    rw [withoutMember, Members.lookup_revise_of_kept fun v => by rw [if_pos rfl, isSome_without]]
    simp only [if_true]
  have hboth := congrArg (List.lookup name) h
  rw [hkept, hkept] at hboth
  cases hu : us.lookup name with
  | none =>
    cases hv : vs.lookup name with
    | none => exact .none
    | some v =>
      obtain ⟨w, hw⟩ := exists_without v step path
      rw [hu, hv, Option.bind_none, Option.bind_some, hw] at hboth
      cases hboth
  | some u =>
    cases hv : vs.lookup name with
    | none =>
      obtain ⟨w, hw⟩ := exists_without u step path
      rw [hu, hv, Option.bind_none, Option.bind_some, hw] at hboth
      cases hboth
    | some v =>
      rw [hu, hv, Option.bind_some, Option.bind_some] at hboth
      exact .some hboth

end Members

section Elements

variable {us vs : List Json} {i : Nat}

theorem length_eq_of_withoutElement (h : withoutElement i path us = withoutElement i path vs) :
    us.length = vs.length := by
  have hlength := congrArg List.length h
  rwa [withoutElement, withoutElement, List.length_modify, List.length_modify] at hlength

/-- At every place the two have the same element, or the elements on the path, which differ
at its end alone. -/
theorem getElem?_cases_of_withoutElement (h : withoutElement i path us = withoutElement i path vs)
    (j : Nat) :
    us[j]? = vs[j]? ∨
      ∃ u v, us[j]? = some u ∧ vs[j]? = some v ∧ j = i ∧ u.without path = v.without path := by
  have hj := congrArg (·[j]?) h
  simp only [withoutElement, List.getElem?_modify] at hj
  cases hu : us[j]? with
  | none =>
    cases hv : vs[j]? with
    | none => exact .inl rfl
    | some v =>
      rw [hu, hv] at hj
      cases hj
  | some u =>
    cases hv : vs[j]? with
    | none =>
      rw [hu, hv] at hj
      cases hj
    | some v =>
      rw [hu, hv] at hj
      by_cases hi : i = j
      · simp only [if_pos hi] at hj
        have hleft : (u.without path).getD .null = (v.without path).getD .null := Option.some.inj hj
        refine .inr ⟨u, v, rfl, rfl, hi.symm, ?_⟩
        cases path with
        | nil => rw [without_nil, without_nil]
        | cons step path =>
          obtain ⟨a, ha⟩ := exists_without u step path
          obtain ⟨b, hb⟩ := exists_without v step path
          rw [ha, hb, Option.getD_some, Option.getD_some] at hleft
          rw [ha, hb, hleft]
      · simp only [if_neg hi] at hj
        exact .inl hj

end Elements

end Json

end PipelineConfig
