import PipelineConfig.Json.Complaint
import PipelineConfig.Schema.Basic

/-!
# Attributes of a node

A node is written as an object of attributes, or as the array of all their
values in the order of `Attribute.all`. Each attribute asks for a value of one
form. The entries of a node are its attributes with their values, in the order
written.
-/

namespace PipelineConfig

/-- What can be written at a node. -/
inductive Attribute where
  /-- The kind of the node. -/
  | type
  /-- A short name for people. -/
  | title
  /-- An explanation for people. -/
  | description
  /-- The value of a field that is left out. -/
  | default
  /-- Whether the field must be there. -/
  | required
  /-- The values that are allowed. -/
  | enum
  /-- The least number admitted. -/
  | minimum
  /-- The greatest number admitted. -/
  | maximum
  /-- The node of an array's elements. -/
  | items
  /-- Whether an array's elements are distinct. -/
  | uniqueItems
  /-- The nodes of an object's fields. -/
  | properties
  /-- A tag for the pipeline runtime. -/
  | direction
  deriving DecidableEq, Repr

namespace Attribute

/-- All attributes, in the order of a node that is written as an array. -/
def all : List Attribute :=
  [type, title, description, default, required, enum, minimum, maximum, items, uniqueItems,
    properties, direction]

/-- The name of the attribute. -/
def name : Attribute → String
  | type => "type"
  | title => "title"
  | description => "description"
  | default => "default"
  | required => "required"
  | enum => "enum"
  | minimum => "minimum"
  | maximum => "maximum"
  | items => "items"
  | uniqueItems => "uniqueItems"
  | properties => "properties"
  | direction => "direction"

/-- The attribute of the given name. -/
def ofName? (name : String) : Option Attribute := all.find? fun a => a.name == name

end Attribute

/-- Reads the kind of a node: a name, or an object that gives the name a null. -/
def Kind.ofJson : Json → Except Complaint Kind
  | .string name => named name
  | .object [(name, v)] => do
    let kind ← named name
    if v.isNull then .ok kind else .error (.wrongType (.ofJson v) "unit")
  | .object _ => .error (.wrongValue .map "map with a single key")
  | v => .error (.wrongType (.ofJson v) "string or map")
where
  /-- The kind of a name, which must be known. -/
  named (name : String) : Except Complaint Kind :=
    match Kind.ofName? name with
    | some kind => .ok kind
    | none => .error (.unknownVariant name (Kind.all.map Kind.name))

namespace Attribute

/-- The form that an attribute other than the kind asks for. A null stands for an
attribute left out, except where it is a mistake. -/
def expected : Attribute → String
  | type => "string or map"
  | title | description | direction => "a string"
  | required | uniqueItems => "a boolean"
  | enum => "a sequence"
  | minimum | maximum => "a JSON number"
  | properties => "a map"
  | default | items => "any value"

/-- Whether a value other than null has the form that the attribute asks for. -/
def fits : Attribute → Json → Bool
  | title, .string _ | description, .string _ | direction, .string _ => true
  | required, .bool _ | uniqueItems, .bool _ => true
  | enum, .array _ => true
  | minimum, .number _ | maximum, .number _ => true
  | properties, .object _ => true
  | default, _ | items, _ => true
  | _, _ => false

/-- Complains about a value that the attribute cannot take. -/
def check (a : Attribute) (v : Json) : Except Complaint Unit :=
  match a, v with
  | .type, v => do let _ ← Kind.ofJson v
  | .required, .null => .error (.wrongType .null a.expected)
  | _, .null => .ok ()
  | a, v => if a.fits v then .ok () else .error (.wrongType (.ofJson v) a.expected)

end Attribute

/-- The attributes of a node with their values. -/
abbrev Entries := List (Attribute × Json)

namespace Entries

/-- What complaints call a node. -/
def form : String := "struct RawNode"

/-- The entries of a node written as an object. -/
def ofMembers : List (String × Json) → Except Complaint Entries
  | [] => .ok []
  | (name, v) :: rest => do
    match Attribute.ofName? name with
    | none => .error (.unknownField name (Attribute.all.map Attribute.name))
    | some a => do
      a.check v
      let others ← ofMembers rest
      .ok ((a, v) :: others)

/-- The entries of a node of `count` elements written as an array, from some
attribute on. The attribute `required` alone may be missing, but those after it
may not. -/
def ofElements (count : Nat) : List Attribute → List Json → Except Complaint Entries
  | [], [] => .ok []
  | [], _ :: _ => .error (.wrongLength count "fewer elements in array")
  | left@(_ :: _), [] =>
    let missing := left.dropWhile (· == .required)
    .error (.wrongLength (Attribute.all.length - missing.length)
      (form ++ " with " ++ toString Attribute.all.length ++ " elements"))
  | a :: left, v :: rest => do
    a.check v
    let others ← ofElements count left rest
    .ok ((a, v) :: others)

/-- The entries of a node. An object must tell its kind. -/
def ofJson : Json → Except Complaint Entries
  | .object members => do
    let entries ← ofMembers members
    if (entries.lookup .type).isSome then .ok entries
    else .error (.missingField Attribute.type.name)
  | .array elements => ofElements elements.length Attribute.all elements
  | v => .error (.wrongType (.ofJson v) form)

/-- The value of an attribute, unless it is left out or null. -/
def get? (entries : Entries) (a : Attribute) : Option Json :=
  (entries.lookup a).filter fun v => !v.isNull

/-- The text of an attribute. -/
def string? (entries : Entries) (a : Attribute) : Option String :=
  match entries.get? a with
  | some (.string s) => some s
  | _ => none

/-- The truth value of an attribute. -/
def bool? (entries : Entries) (a : Attribute) : Option Bool :=
  match entries.get? a with
  | some (.bool b) => some b
  | _ => none

/-- The number of an attribute. -/
def number? (entries : Entries) (a : Attribute) : Option Number :=
  match entries.get? a with
  | some (.number n) => some n
  | _ => none

/-- The elements of an attribute. -/
def array? (entries : Entries) (a : Attribute) : Option (List Json) :=
  match entries.get? a with
  | some (.array elements) => some elements
  | _ => none

/-- The kind of the node. -/
def kind? (entries : Entries) : Option Kind :=
  match (entries.lookup .type).map Kind.ofJson with
  | some (.ok kind) => some kind
  | _ => none

/-- Values of attributes are smaller than the members they are written in. -/
theorem ofMembers_sizeOf {members : List (String × Json)} {entries : Entries}
    (h : ofMembers members = .ok entries) {a : Attribute} {v : Json}
    (hv : (a, v) ∈ entries) : sizeOf v < sizeOf members := by
  induction members generalizing entries with
  | nil => simp [ofMembers] at h; subst h; simp at hv
  | cons head rest ih =>
    obtain ⟨name, w⟩ := head
    rw [ofMembers] at h
    split at h
    · cases h
    · next b _ =>
      cases hc : b.check w with
      | error c => simp [hc, bind, Except.bind] at h
      | ok _ =>
        cases ho : ofMembers rest with
        | error c => simp [hc, ho, bind, Except.bind] at h
        | ok others =>
          simp [hc, ho, bind, Except.bind] at h
          subst h
          rcases List.mem_cons.1 hv with hv | hv
          · cases hv
            simp only [List.cons.sizeOf_spec, Prod.mk.sizeOf_spec]
            omega
          · have := ih ho hv
            simp only [List.cons.sizeOf_spec]
            omega

/-- Values of attributes are smaller than the elements they are written in. -/
theorem ofElements_sizeOf {count : Nat} {left : List Attribute} {elements : List Json}
    {entries : Entries} (h : ofElements count left elements = .ok entries) {a : Attribute}
    {v : Json} (hv : (a, v) ∈ entries) : sizeOf v < sizeOf elements := by
  induction elements generalizing left entries with
  | nil =>
    cases left with
    | nil => simp [ofElements] at h; subst h; simp at hv
    | cons => simp [ofElements] at h
  | cons w rest ih =>
    cases left with
    | nil => simp [ofElements] at h
    | cons b left =>
      rw [ofElements] at h
      cases hc : b.check w with
      | error c => simp [hc, bind, Except.bind] at h
      | ok _ =>
        cases ho : ofElements count left rest with
        | error c => simp [hc, ho, bind, Except.bind] at h
        | ok others =>
          simp [hc, ho, bind, Except.bind] at h
          subst h
          rcases List.mem_cons.1 hv with hv | hv
          · cases hv
            simp only [List.cons.sizeOf_spec]
            omega
          · have := ih ho hv
            simp only [List.cons.sizeOf_spec]
            omega

/-- Values of attributes are smaller than the node they are written at. -/
theorem ofJson_sizeOf {node : Json} {entries : Entries} (h : ofJson node = .ok entries)
    {a : Attribute} {v : Json} (hv : (a, v) ∈ entries) : sizeOf v < sizeOf node := by
  cases node with
  | object members =>
    rw [ofJson] at h
    cases ho : ofMembers members with
    | error c => simp [ho, bind, Except.bind] at h
    | ok found =>
      simp only [ho, bind, Except.bind] at h
      split at h
      · cases h
        have := ofMembers_sizeOf ho hv
        rw [Json.object.sizeOf_spec]
        omega
      · cases h
  | array elements =>
    have := ofElements_sizeOf h hv
    rw [Json.array.sizeOf_spec]
    omega
  | null | bool _ | number _ | string _ => simp [ofJson] at h

/-- The value found for an attribute is one of the entries. -/
theorem mem_of_get? {entries : Entries} {a : Attribute} {v : Json}
    (h : entries.get? a = some v) : (a, v) ∈ entries := by
  have hl : entries.lookup a = some v := by
    rw [get?, Option.filter_eq_some_iff] at h
    exact h.1
  induction entries with
  | nil => simp at hl
  | cons head rest ih =>
    obtain ⟨b, w⟩ := head
    rw [List.lookup_cons] at hl
    split at hl
    · next hb =>
      cases hl
      have := eq_of_beq hb
      subst this
      exact List.mem_cons_self
    · exact List.mem_cons_of_mem _ (ih (by
        rw [get?, Option.filter_eq_some_iff] at h ⊢
        exact ⟨hl, h.2⟩) hl)

end Entries

end PipelineConfig
