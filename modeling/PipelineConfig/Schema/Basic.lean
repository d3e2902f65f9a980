import PipelineConfig.Json.Basic

/-!
# Schemas

A schema is a tree of nodes, one for every field of a configuration. Its shape
admits only what makes sense: bounds stand on numeric leaves, allowed values on
leaves, and an object either declares its fields or is open to any.
-/

namespace PipelineConfig

/-- What a node asks a value to be. -/
inductive Kind where
  /-- Any text. -/
  | string
  /-- A whole number. -/
  | integer
  /-- Any number. -/
  | number
  /-- A truth value. -/
  | boolean
  /-- Named fields. -/
  | object
  /-- Elements of one form. -/
  | array
  deriving DecidableEq, Repr

namespace Kind

/-- All kinds, in the order in which they are listed. -/
def all : List Kind := [string, integer, number, boolean, object, array]

/-- The name of the kind. -/
def name : Kind → String
  | string => "string"
  | integer => "integer"
  | number => "number"
  | boolean => "boolean"
  | object => "object"
  | array => "array"

/-- The kind of the given name. -/
def ofName? (name : String) : Option Kind := all.find? fun kind => kind.name == name

/-- Whether values of the kind can be bounded. -/
def isNumeric : Kind → Bool
  | integer | number => true
  | _ => false

/-- Whether a value is of the kind. A floating-point number that is whole is an
integer too. -/
def admits : Kind → Json → Bool
  | string, .string _ => true
  | integer, .number n => n.isWhole
  | number, .number _ => true
  | boolean, .bool _ => true
  | object, .object _ => true
  | array, .array _ => true
  | _, _ => false

end Kind

/-- Inclusive limits on a number, either of which may be missing. -/
structure Bounds where
  /-- The least number admitted. -/
  minimum : Option Number := none
  /-- The greatest number admitted. -/
  maximum : Option Number := none
  deriving DecidableEq, Repr, Inhabited

/-- The values of a leaf, before any list of allowed values. -/
inductive Leaf where
  /-- Any text. -/
  | string
  /-- A whole number within bounds. -/
  | integer (bounds : Bounds)
  /-- A number within bounds. -/
  | number (bounds : Bounds)
  /-- A truth value. -/
  | boolean
  deriving DecidableEq, Repr

namespace Leaf

/-- The kind of a leaf. -/
def kind : Leaf → Kind
  | string => .string
  | integer _ => .integer
  | number _ => .number
  | boolean => .boolean

/-- The bounds of a leaf; one that is not numeric has none. -/
def bounds : Leaf → Bounds
  | integer bounds | number bounds => bounds
  | string | boolean => {}

end Leaf

/-- What a node of any kind may say about its field. -/
structure Header where
  /-- A short name for people. -/
  title : Option String := none
  /-- An explanation for people. -/
  description : Option String := none
  /-- A tag for the pipeline runtime. -/
  direction : Option String := none
  /-- The value that the field takes when it is left out. -/
  default : Option Json := none
  /-- Whether the field must be there, if it has no default. -/
  required : Bool := false
  deriving Repr, Inhabited

/-- A node and all below it. -/
inductive Schema where
  /-- A single value. An empty list of allowed values allows all. -/
  | leaf (header : Header) (type : Leaf) (allowed : List Json)
  /-- An object with declared fields, in the order in which they are shown. -/
  | object (header : Header) (properties : List (String × Schema))
  /-- An object with any fields. -/
  | openObject (header : Header)
  /-- An array of elements of one form, which may have to be distinct. -/
  | array (header : Header) (unique : Bool) (items : Schema)
  deriving Repr, Inhabited

namespace Schema

/-- What the node says about its field. -/
def header : Schema → Header
  | leaf header _ _ | object header _ | openObject header | array header _ _ => header

/-- The same node with something else said about its field. -/
def withHeader (header : Header) : Schema → Schema
  | leaf _ type allowed => leaf header type allowed
  | object _ properties => object header properties
  | openObject _ => openObject header
  | array _ unique items => array header unique items

/-- The kind of the node. -/
def kind : Schema → Kind
  | leaf _ type _ => type.kind
  | object _ _ | openObject _ => .object
  | array _ _ _ => .array

/-- The declared field of the given name, if the node has one. -/
def property? (name : String) : Schema → Option Schema
  | object _ properties => properties.lookup name
  | _ => none

end Schema

namespace Bounds

/-- Equality of bounds as JSON numbers. -/
def same (a b : Bounds) : Bool :=
  sameBound a.minimum b.minimum && sameBound a.maximum b.maximum
where
  /-- Equality of one bound. -/
  sameBound : Option Number → Option Number → Bool
    | some m, some n => m.same n
    | none, none => true
    | _, _ => false

end Bounds

/-- Equality of leaves with bounds compared as JSON numbers. -/
def Leaf.same (a b : Leaf) : Bool := a.kind == b.kind && a.bounds.same b.bounds

/-- Equality of headers with defaults compared as JSON values. -/
def Header.same (a b : Header) : Bool :=
  a.title == b.title && a.description == b.description && a.direction == b.direction &&
    a.required == b.required && sameDefault a.default b.default
where
  /-- Equality of defaults. -/
  sameDefault : Option Json → Option Json → Bool
    | some u, some v => u.same v
    | none, none => true
    | _, _ => false

namespace Schema

mutual

/-- Equality of nodes, in which JSON values are compared as such and the order of
fields counts. -/
def same : Schema → Schema → Bool
  | leaf h type allowed, leaf h' type' allowed' =>
    h.same h' && type.same type' && Json.sameElements allowed allowed'
  | object h properties, object h' properties' =>
    h.same h' && sameProperties properties properties'
  | openObject h, openObject h' => h.same h'
  | array h unique items, array h' unique' items' =>
    h.same h' && unique == unique' && same items items'
  | _, _ => false

/-- Equality of field declarations, one by one. -/
def sameProperties : List (String × Schema) → List (String × Schema) → Bool
  | [], [] => true
  | (name, node) :: rest, (name', node') :: rest' =>
    name == name' && same node node' && sameProperties rest rest'
  | _, _ => false

end

end Schema

end PipelineConfig
