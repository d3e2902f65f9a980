import PipelineConfig.Schema.Basic
import PipelineConfig.Validation.Checked
import PipelineConfig.Validation.Limits
import PipelineConfig.Validation.Report

/-!
# Examining a configuration

A configuration is walked along its schema. A field that is left out takes its
default, and is missing if it is required and has none; other objects and arrays
left out count as empty. A value is checked for its kind first, and only a value
of the right kind for being allowed and within bounds. Whatever the schema does
not describe is carried over as it is. Nothing found stops the walk.
-/

namespace PipelineConfig

/-- What a field that is left out becomes. -/
inductive Substitute where
  /-- Its default. -/
  | default (value : Json)
  /-- Nothing, although it is required. -/
  | missing
  /-- An empty object or array. -/
  | empty (value : Json)
  /-- Nothing. -/
  | nothing

/-- What a field of this node becomes when it is left out. -/
def Schema.substitute (node : Schema) : Substitute :=
  match node.header.default, node.header.required, node with
  | some value, _, _ => .default value
  | none, true, _ => .missing
  | none, false, .leaf .. => .nothing
  | none, false, .object .. | none, false, .openObject .. => .empty (.object [])
  | none, false, .array .. => .empty (.array [])

namespace Limits

/-- A value lies, or reaches, below the greatest depth. -/
def tooDeep (limits : Limits) : Violation :=
  .limitExceeded .root ("nesting depth at most " ++ toString limits.maxDepth)
    ("value nested below depth " ++ toString limits.maxDepth)

/-- An array of so many elements is too long. -/
def tooLong (limits : Limits) (length : Nat) : Violation :=
  .limitExceeded .root ("at most " ++ toString limits.maxArrayLength ++ " items")
    (toString length ++ " items")

/-- Carries over a value that no node describes, wherever it ends. -/
def carry (limits : Limits) (depth : Nat) (v : Json) : Checked Json := do
  if limits.maxDepth < depth + v.height then .report [limits.tooDeep]
  pure v

/-- Carries over a value that is of another kind than its node. -/
def mismatch (limits : Limits) (depth : Nat) (kind : Kind) (v : Json) : Checked Json := do
  .report [.typeMismatch .root kind.name v.typeName]
  limits.carry depth v

/-- Looks at a value that is there, unless it lies too deep. -/
def present (limits : Limits) (depth : Nat) (look : Json → Checked Json) (v : Json) :
    Checked Json :=
  if limits.maxDepth < depth then do
    .report [limits.tooDeep]
    pure v
  else look v

/-- Looks at a field, there or not. What stands in for a field left out is not
charged for its depth. -/
def place (limits : Limits) (depth : Nat) (node : Schema) (look : Json → Checked Json) :
    Option Json → Checked (Option Json)
  | some v => some <$> limits.present depth look v
  | none =>
    match node.substitute with
    | .default v => do
      .reportDefault
      some <$> look v
    | .missing => do
      .report [.missingField .root]
      pure none
    | .empty v => some <$> look v
    | .nothing => pure none

/-- Carries over the fields that no node declares. -/
def carryUndeclared (limits : Limits) (depth : Nat) :
    List (String × Json) → Checked (List (String × Json))
  | [] => pure []
  | (name, v) :: rest => do
    let carried ← (limits.carry depth v).under (.key name)
    let others ← limits.carryUndeclared depth rest
    pure ((name, carried) :: others)

end Limits

/-- Looks at the elements of an array, the first of which has the given index. -/
def eachElement (look : Json → Checked Json) (start : Nat) : List Json → Checked (List Json)
  | [] => pure []
  | v :: rest => do
    let found ← (look v).under (.index start)
    let others ← eachElement look (start + 1) rest
    pure (found :: others)

/-- A field's value. A null counts as a field left out. -/
def fieldValue (members : List (String × Json)) (name : String) : Option Json :=
  (members.lookup name).filter fun v => !v.isNull

/-- The members whose keys are not declared, in their order. -/
def undeclared (properties : List (String × Schema)) (members : List (String × Json)) :
    List (String × Json) :=
  members.filter fun (name, _) => !properties.any fun (declared, _) => declared == name

/-- The elements that repeat an earlier one, each with the first that it repeats. -/
def duplicates (elements : List Json) : List Violation :=
  elements.zipIdx.filterMap fun (v, i) =>
    ((elements.take i).findIdx? fun earlier => earlier.same v).map
      (Violation.duplicateItem [.index i])

/-- A value of the right kind that is not among those allowed. -/
def notAllowed (allowed : List Json) (v : Json) : List Violation :=
  if allowed.isEmpty || allowed.any (fun a => a.same v) then []
  else [.notInEnum .root allowed v]

/-- A number outside its bounds. Numbers compare as binary64 numbers. -/
def outOfBounds (bounds : Bounds) : Json → List Violation
  | .number n =>
    (match bounds.minimum with
      | some least =>
        if n.order < least.order then [.outOfRange .root ("value >= " ++ least.text) (.number n)]
        else []
      | none => []) ++
    (match bounds.maximum with
      | some greatest =>
        if greatest.order < n.order then
          [.outOfRange .root ("value <= " ++ greatest.text) (.number n)]
        else []
      | none => [])
  | _ => []

/-- Looks at a single value. -/
def Leaf.examine (type : Leaf) (allowed : List Json) (limits : Limits) (depth : Nat) (v : Json) :
    Checked Json :=
  if type.kind.admits v then do
    .report (notAllowed allowed v ++ outOfBounds type.bounds v)
    pure v
  else limits.mismatch depth type.kind v

namespace Schema

mutual

/-- Looks at a value that stands at the given depth. -/
def examine (limits : Limits) : Schema → (depth : Nat) → Json → Checked Json
  | leaf _ type allowed, depth, v => type.examine allowed limits depth v
  | openObject _, depth, v =>
    match v with
    | .object _ => limits.carry depth v
    | _ => limits.mismatch depth .object v
  | object _ properties, depth, v =>
    match v with
    | .object members => do
      let declared ← examineFields limits properties depth members
      let others ← limits.carryUndeclared (depth + 1) (undeclared properties members)
      pure (.object (Members.collect declared ++ others))
    | _ => limits.mismatch depth .object v
  | array _ unique items, depth, v =>
    match v with
    | .array elements =>
      if limits.maxArrayLength < elements.length then do
        .report [limits.tooLong elements.length]
        pure v
      else do
        let found ← eachElement (fun element =>
          limits.present (depth + 1) (fun w => examine limits items (depth + 1) w) element)
          0 elements
        if unique then .report (duplicates found)
        pure (.array found)
    | _ => limits.mismatch depth .array v

/-- Looks at the declared fields of an object that stands at the given depth. -/
def examineFields (limits : Limits) : List (String × Schema) → (depth : Nat) →
    List (String × Json) → Checked (List (String × Json))
  | [], _, _ => pure []
  | (name, node) :: rest, depth, members => do
    let found ← (limits.place (depth + 1) node (fun v => examine limits node (depth + 1) v)
      (fieldValue members name)).under (.key name)
    let others ← examineFields limits rest depth members
    match found with
    | some v => pure ((name, v) :: others)
    | none => pure others

end

/-- Validates a configuration. A null counts as a configuration left out. -/
def validate (limits : Limits) (node : Schema) (candidate : Json) : Report :=
  let field := if candidate.isNull then none else some candidate
  let found := limits.place 0 node (fun v => node.examine limits 0 v) field
  ⟨found.value.getD .null, found.violations, found.defaulted⟩

end Schema

end PipelineConfig
