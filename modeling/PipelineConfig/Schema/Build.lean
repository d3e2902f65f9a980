import PipelineConfig.Schema.Basic

/-!
# Building schemas

A schema is built from a node that admits everything of its kind, which is then
narrowed step by step. A step that its node cannot take is a misuse, and no
schema comes of it.
-/

namespace PipelineConfig

/-- A step that a node cannot take. -/
inductive Misuse where
  /-- No value is allowed. -/
  | nothingAllowed
  /-- Allowed values on an object or an array. -/
  | allowedOnContainer
  /-- A minimum above the maximum. -/
  | boundsInverted
  /-- Bounds on a node that is not numeric. -/
  | boundsOnOther
  /-- Distinct elements of a node that is no array. -/
  | distinctOnOther
  deriving DecidableEq, Repr

/-- The misuse in words. -/
def Misuse.message : Misuse → String
  | nothingAllowed => "'enum' must not be empty"
  | allowedOnContainer => "'enum' is not allowed on object and array nodes"
  | boundsInverted => "'minimum' is greater than 'maximum'"
  | boundsOnOther => "'minimum' and 'maximum' are only allowed on integer and number nodes"
  | distinctOnOther => "'uniqueItems' is only allowed on array nodes"

namespace Schema

/-- Any text. -/
def anyString : Schema := leaf {} .string []

/-- Any whole number. -/
def anyInteger : Schema := leaf {} (.integer {}) []

/-- Any number. -/
def anyNumber : Schema := leaf {} (.number {}) []

/-- Any truth value. -/
def anyBoolean : Schema := leaf {} .boolean []

/-- Any object. -/
def anyObject : Schema := openObject {}

/-- An object with the given fields. -/
def form (properties : List (String × Schema)) : Schema := object {} properties

/-- An array of the given elements. -/
def listOf (items : Schema) : Schema := array {} false items

/-- The field must be there. -/
def asRequired (node : Schema) : Schema :=
  node.withHeader { node.header with required := true }

/-- The field takes this value when it is left out. -/
def withDefault (value : Json) (node : Schema) : Schema :=
  node.withHeader { node.header with default := some value }

/-- The field has this name for people. -/
def withTitle (title : String) (node : Schema) : Schema :=
  node.withHeader { node.header with title := some title }

/-- The field is one of the given values. -/
def allowing (values : List Json) (node : Schema) : Except Misuse Schema :=
  if values.isEmpty then .error .nothingAllowed
  else match node with
    | leaf header type _ => .ok (leaf header type values)
    | _ => .error .allowedOnContainer

/-- The field lies within the given bounds, both included. -/
def within (minimum maximum : Option Int) (node : Schema) : Except Misuse Schema :=
  let inverted := match minimum, maximum with
    | some least, some greatest => decide (greatest < least)
    | _, _ => false
  let bounds : Bounds := ⟨minimum.map .integer, maximum.map .integer⟩
  if inverted then .error .boundsInverted
  else match node with
    | leaf header (.integer _) allowed => .ok (leaf header (.integer bounds) allowed)
    | leaf header (.number _) allowed => .ok (leaf header (.number bounds) allowed)
    | _ => .error .boundsOnOther

/-- The elements of the array are distinct. -/
def distinct (node : Schema) : Except Misuse Schema :=
  match node with
  | array header _ items => .ok (array header true items)
  | _ => .error .distinctOnOther

end Schema

end PipelineConfig
