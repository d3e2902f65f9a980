import PipelineConfig.Schema.Attribute

/-!
# Schemas as JSON

Schemas are read from JSON and written back. Reading a node takes three steps:
its attributes must each have the right form, together they must make sense for
the node's kind, and then the nodes below are read in their order. The first
node with a flaw is blamed, by the path of names that leads to it.
-/

namespace PipelineConfig

/-- Why a node is no schema, whatever is below it. -/
inductive Flaw where
  /-- An attribute or the node itself has the wrong form. -/
  | form (complaint : Complaint)
  /-- A node that is no array describes elements. -/
  | itemsMisplaced
  /-- A node that is no object declares fields. -/
  | propertiesMisplaced
  /-- A node that is not numeric has bounds. -/
  | boundsMisplaced
  /-- An object or an array lists allowed values. -/
  | enumMisplaced (kind : Kind)
  /-- An object declares no fields, not even none. -/
  | propertiesMissing
  /-- An array does not describe its elements. -/
  | itemsMissing
  /-- A list of allowed values is empty. -/
  | enumEmpty
  /-- The minimum is above the maximum. -/
  | boundsInverted
  deriving DecidableEq, Repr

/-- The flaw in words. -/
def Flaw.message : Flaw → String
  | form complaint => complaint.message
  | itemsMisplaced => "'items' and 'uniqueItems' are only allowed on array nodes"
  | propertiesMisplaced => "'properties' is only allowed on object nodes"
  | boundsMisplaced => "'minimum' and 'maximum' are only allowed on integer and number nodes"
  | enumMisplaced kind => "'enum' is not allowed on " ++ kind.name ++ " nodes"
  | propertiesMissing => "object node must declare 'properties'"
  | itemsMissing => "array node must declare 'items'"
  | enumEmpty => "'enum' must not be empty"
  | boundsInverted => "'minimum' is greater than 'maximum'"

/-- A flawed node. -/
structure FlawedNode where
  /-- The names that lead to the node. -/
  path : String
  /-- What is wrong with it. -/
  flaw : Flaw
  deriving DecidableEq, Repr

/-- A node whose own attributes make sense, with the nodes below it still to be
read. -/
inductive Outline where
  /-- A single value. -/
  | leaf (type : Leaf) (allowed : List Json)
  /-- An object with declared fields. -/
  | object (properties : List (String × Json))
  /-- An object with any fields. -/
  | openObject
  /-- An array. -/
  | array (unique : Bool) (items : Json)

namespace Bounds

/-- Whether the minimum is above the maximum. -/
def inverted (bounds : Bounds) : Bool :=
  match bounds.minimum, bounds.maximum with
  | some least, some greatest => greatest.order < least.order
  | _, _ => false

end Bounds

namespace Entries

/-- What the attributes say about the field. -/
def header (entries : Entries) : Header where
  title := entries.string? .title
  description := entries.string? .description
  direction := entries.string? .direction
  default := entries.get? .default
  required := (entries.bool? .required).getD false

/-- The bounds that the attributes set. -/
def bounds (entries : Entries) : Bounds := ⟨entries.number? .minimum, entries.number? .maximum⟩

/-- Whether an attribute is written and not null. -/
def has (entries : Entries) (a : Attribute) : Bool := (entries.get? a).isSome

/-- The outline of a leaf. -/
def leafOutline (entries : Entries) (type : Leaf) : Except Flaw Outline :=
  match entries.array? .enum with
  | some [] => .error .enumEmpty
  | allowed =>
    if entries.bounds.inverted then .error .boundsInverted
    else .ok (.leaf type (allowed.getD []))

/-- The outline of a node of the given kind. -/
def outline (entries : Entries) (kind : Kind) : Except Flaw Outline :=
  if kind ≠ .array ∧ (entries.has .items ∨ entries.has .uniqueItems) then
    .error .itemsMisplaced
  else if kind ≠ .object ∧ entries.has .properties then .error .propertiesMisplaced
  else if ¬ kind.isNumeric ∧ (entries.has .minimum ∨ entries.has .maximum) then
    .error .boundsMisplaced
  else match kind with
    | .string => entries.leafOutline .string
    | .boolean => entries.leafOutline .boolean
    | .integer => entries.leafOutline (.integer entries.bounds)
    | .number => entries.leafOutline (.number entries.bounds)
    | .object =>
      if entries.has .enum then .error (.enumMisplaced .object)
      else match entries.get? .properties with
        | some (.object []) => .ok .openObject
        | some (.object properties) => .ok (.object properties)
        | _ => .error .propertiesMissing
    | .array =>
      if entries.has .enum then .error (.enumMisplaced .array)
      else match entries.get? .items with
        | some items => .ok (.array ((entries.bool? .uniqueItems).getD false) items)
        | none => .error .itemsMissing

end Entries

/-- What a node says about its field, and its outline. -/
structure Declaration where
  /-- What is said about the field. -/
  header : Header
  /-- The node without the nodes below. -/
  outline : Outline

namespace Declaration

/-- Reads a node without the nodes below. -/
def ofJson (node : Json) : Except Flaw Declaration :=
  match Entries.ofJson node with
  | .error complaint => .error (.form complaint)
  | .ok entries =>
    match entries.kind? with
    | none => .error (.form (.missingField Attribute.type.name))
    | some kind =>
      match entries.outline kind with
      | .error flaw => .error flaw
      | .ok outline => .ok ⟨entries.header, outline⟩

end Declaration

namespace Entries

theorem leafOutline_ne_array {entries : Entries} {type : Leaf} {unique : Bool} {items : Json} :
    entries.leafOutline type ≠ .ok (.array unique items) := by
  unfold leafOutline
  repeat' split
  all_goals simp

theorem leafOutline_ne_object {entries : Entries} {type : Leaf}
    {properties : List (String × Json)} :
    entries.leafOutline type ≠ .ok (.object properties) := by
  unfold leafOutline
  repeat' split
  all_goals simp

/-- The elements' node of an outline is written at the attribute for it. -/
theorem get?_items_of_outline {entries : Entries} {kind : Kind} {unique : Bool} {items : Json}
    (h : entries.outline kind = .ok (.array unique items)) :
    entries.get? .items = some items := by
  unfold outline at h
  repeat' split at h
  all_goals first
    | cases h; assumption
    | exact absurd h leafOutline_ne_array
    | cases h

/-- The fields of an outline are written at the attribute for them. -/
theorem get?_properties_of_outline {entries : Entries} {kind : Kind}
    {properties : List (String × Json)}
    (h : entries.outline kind = .ok (.object properties)) :
    entries.get? .properties = some (.object properties) := by
  unfold outline at h
  repeat' split at h
  all_goals first
    | cases h; assumption
    | exact absurd h leafOutline_ne_object
    | cases h

end Entries

namespace Declaration

/-- An outline comes from the node's entries. -/
theorem exists_entries {node : Json} {header : Header} {o : Outline}
    (h : ofJson node = .ok ⟨header, o⟩) :
    ∃ entries kind, Entries.ofJson node = .ok entries ∧
      Entries.outline entries kind = .ok o := by
  rw [ofJson] at h
  split at h
  · cases h
  · next entries he =>
    split at h
    · cases h
    · next kind _ =>
      split at h
      · cases h
      · next o' ho => cases h; exact ⟨entries, kind, he, ho⟩

/-- The node of the elements is smaller than the array's node. -/
theorem sizeOf_items {node : Json} {header : Header} {unique : Bool} {items : Json}
    (h : ofJson node = .ok ⟨header, .array unique items⟩) : sizeOf items < sizeOf node := by
  obtain ⟨entries, kind, he, ho⟩ := exists_entries h
  exact Entries.ofJson_sizeOf he (Entries.mem_of_get? (Entries.get?_items_of_outline ho))

/-- The nodes of the fields are smaller than the object's node. -/
theorem sizeOf_properties {node : Json} {header : Header} {properties : List (String × Json)}
    (h : ofJson node = .ok ⟨header, .object properties⟩) :
    sizeOf properties < sizeOf node := by
  obtain ⟨entries, kind, he, ho⟩ := exists_entries h
  have := Entries.ofJson_sizeOf he (Entries.mem_of_get? (Entries.get?_properties_of_outline ho))
  rw [Json.object.sizeOf_spec] at this
  omega

end Declaration

namespace Schema

mutual

/-- Reads a node and all below it. The path names the node in a complaint. -/
def ofJson (path : String) (node : Json) : Except FlawedNode Schema :=
  match _h : Declaration.ofJson node with
  | .error flaw => .error ⟨path, flaw⟩
  | .ok ⟨header, .leaf type allowed⟩ => .ok (.leaf header type allowed)
  | .ok ⟨header, .openObject⟩ => .ok (.openObject header)
  | .ok ⟨header, .array unique items⟩ =>
    match ofJson (path ++ "[]") items with
    | .error flawed => .error flawed
    | .ok node => .ok (.array header unique node)
  | .ok ⟨header, .object properties⟩ =>
    match ofMembers path properties with
    | .error flawed => .error flawed
    | .ok nodes => .ok (.object header nodes)
termination_by sizeOf node
decreasing_by
  · exact Declaration.sizeOf_items ‹_›
  · exact Declaration.sizeOf_properties ‹_›

/-- Reads the nodes of fields one after another. -/
def ofMembers (path : String) (members : List (String × Json)) :
    Except FlawedNode (List (String × Schema)) :=
  match members with
  | [] => .ok []
  | (name, node) :: rest =>
    match ofJson (path ++ "." ++ name) node with
    | .error flawed => .error flawed
    | .ok child =>
      match ofMembers path rest with
      | .error flawed => .error flawed
      | .ok others => .ok ((name, child) :: others)
termination_by sizeOf members
decreasing_by
  all_goals
    simp only [List.cons.sizeOf_spec, Prod.mk.sizeOf_spec]
    omega

end

end Schema

/-- A member that is written only if there is a value for it. -/
def optionalMember (a : Attribute) (value : Option Json) : List (String × Json) :=
  match value with
  | some v => [(a.name, v)]
  | none => []

/-- The attributes that a node of any kind may have. -/
def Header.members (header : Header) : List (String × Json) :=
  optionalMember .title (header.title.map .string) ++
  optionalMember .description (header.description.map .string) ++
  optionalMember .direction (header.direction.map .string) ++
  optionalMember .default header.default ++
  optionalMember .required (if header.required then some (.bool true) else none)

/-- The attributes of a leaf. -/
def Leaf.members (type : Leaf) (allowed : List Json) : List (String × Json) :=
  optionalMember .enum (if allowed.isEmpty then none else some (.array allowed)) ++
  optionalMember .minimum (type.bounds.minimum.map .number) ++
  optionalMember .maximum (type.bounds.maximum.map .number)

namespace Schema

mutual

/-- The node as JSON. Attributes that say nothing are left out. -/
def toJson : Schema → Json
  | leaf header type allowed =>
    .object ((Attribute.type.name, .string type.kind.name) :: header.members ++
      type.members allowed)
  | object header properties =>
    .object ((Attribute.type.name, .string Kind.object.name) :: header.members ++
      [(Attribute.properties.name, .object (Members.collect (toMembers properties)))])
  | openObject header =>
    .object ((Attribute.type.name, .string Kind.object.name) :: header.members ++
      [(Attribute.properties.name, .object [])])
  | array header unique items =>
    .object ((Attribute.type.name, .string Kind.array.name) :: header.members ++
      optionalMember .uniqueItems (if unique then some (.bool true) else none) ++
      [(Attribute.items.name, toJson items)])

/-- The declared fields as members. -/
def toMembers : List (String × Schema) → List (String × Json)
  | [] => []
  | (name, node) :: rest => (name, toJson node) :: toMembers rest

end

end Schema

end PipelineConfig
