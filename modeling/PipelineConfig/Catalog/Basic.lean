import PipelineConfig.Catalog.Error
import PipelineConfig.Json.Parse
import PipelineConfig.Schema.Dialect
import PipelineConfig.Validation.Examine

/-!
# Catalogs

A catalog holds the schemas of stages by category and stage type. It is read
from an object of categories, each an object of stage types, and is accepted
only if every stage is an object node and every default in it satisfies its own
node. What it holds never changes.
-/

namespace PipelineConfig

/-- The stages of one category by stage type, in the order of their definition. -/
abbrev Stages := List (String × Schema)

/-- Schemas of stages by category. -/
structure Catalog where
  /-- The stages of each category that was defined. -/
  categories : List (Category × Stages)

namespace Schema

mutual

/-- The first default, seen from the root, that its own node does not accept: the
path of names to the node, and what is wrong. The default limits apply. -/
def faultyDefault? (path : String) (node : Schema) : Option (String × Violation) :=
  match node.header.default.bind fun v => (node.validate {} v).violations.head? with
  | some violation => some (path, violation)
  | none =>
    match node with
    | object _ properties => faultyDefaultBelow? path properties
    | array _ _ items => items.faultyDefault? (path ++ "[]")
    | leaf .. | openObject _ => none

/-- The first such default among the fields of an object. -/
def faultyDefaultBelow? (path : String) : List (String × Schema) → Option (String × Violation)
  | [] => none
  | (name, node) :: rest =>
    (node.faultyDefault? (path ++ "." ++ name)).or (faultyDefaultBelow? path rest)

end

end Schema

namespace Catalog

/-- Reads the schema of one stage. -/
def readStage (path : String) (definition : Json) : Except CatalogError Schema :=
  match Schema.ofJson path definition with
  | .error flawed => .error (.malformed flawed.path flawed.flaw.message)
  | .ok node =>
    if node.kind ≠ .object then
      .error (.malformed path "stage schema root must be an object node")
    else match node.faultyDefault? path with
      | some (faulty, violation) =>
        .error (.malformed faulty
          ("default does not satisfy its own schema: " ++ violation.text))
      | none => .ok node

/-- Reads the stages of one category. -/
def readStages (category : Category) : List (String × Json) → Except CatalogError Stages
  | [] => .ok []
  | (typeKey, definition) :: rest => do
    let node ← readStage (category.name ++ "." ++ typeKey) definition
    let others ← readStages category rest
    .ok ((typeKey, node) :: others)

/-- Reads the categories of a definition. -/
def readCategories : List (String × Json) → Except CatalogError (List (Category × Stages))
  | [] => .ok []
  | (name, definition) :: rest => do
    let category ← match Category.ofName name with
      | .ok category => .ok category
      | .error e => .error (.malformed name e.message)
    let stages ← match definition with
      | .object entries => readStages category entries
      | _ => .error (.malformed name "category must map stage types to schemas")
    let others ← readCategories rest
    .ok ((category, stages) :: others)

/-- Reads a catalog from its definition. -/
def ofJson : Json → Except CatalogError Catalog
  | .object members => Catalog.mk <$> readCategories members
  | _ => .error (.malformed "$root" "catalog definition must be an object keyed by category")

/-- Reads a catalog from the text of its definition. The origin names the text in
errors. -/
def parse (text origin : String) : Except CatalogError Catalog :=
  match Json.parse text with
  | .ok definition => ofJson definition
  | .error e => .error (.malformed origin ("Invalid JSON: " ++ e.message))

/-- The stages of a category; one that was not defined has none. -/
def stages (catalog : Catalog) (category : Category) : Stages :=
  (catalog.categories.lookup category).getD []

/-- The schema of a stage. -/
def lookup (catalog : Catalog) (category : Category) (typeKey : String) :
    Except CatalogError Schema :=
  match (catalog.stages category).lookup typeKey with
  | some node => .ok node
  | none => .error (.unknownType category.name typeKey)

/-- The schema of a stage whose category is given by name. -/
def lookupNamed (catalog : Catalog) (category typeKey : String) : Except CatalogError Schema :=
  match Category.ofName category with
  | .ok category => catalog.lookup category typeKey
  | .error e => .error e

/-- Whether the catalog has a stage. -/
def contains (catalog : Catalog) (category : Category) (typeKey : String) : Bool :=
  ((catalog.stages category).lookup typeKey).isSome

/-- The stage types of a category in ascending order. -/
def typeKeys (catalog : Catalog) (category : Category) : List String :=
  ((catalog.stages category).map Prod.fst).mergeSort fun a b => decide (a ≤ b)

/-- The definition of a stage. -/
def describe (catalog : Catalog) (category : Category) (typeKey : String) :
    Except CatalogError Json :=
  Schema.toJson <$> catalog.lookup category typeKey

/-- The number of stages in all categories. -/
def size (catalog : Catalog) : Nat :=
  catalog.categories.foldr (fun c count => c.2.length + count) 0

/-- Validates the configuration of a stage. -/
def validate (catalog : Catalog) (limits : Limits) (category typeKey : String)
    (candidate : Json) : Except CatalogError Report :=
  match catalog.lookupNamed category typeKey with
  | .ok node => .ok (node.validate limits candidate)
  | .error e => .error e

end Catalog

end PipelineConfig
