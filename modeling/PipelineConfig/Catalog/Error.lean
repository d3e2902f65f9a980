import PipelineConfig.Catalog.Category

/-!
# Catalog errors

A stage can be asked for that a catalog does not have, which rejects the
question. A catalog that cannot be had at all is fatal.
-/

namespace PipelineConfig

/-- How much an error concerns. -/
inductive Gravity where
  /-- The question is rejected; the catalog is sound. -/
  | reject
  /-- There is no catalog to ask. -/
  | fatal
  deriving DecidableEq, Repr

/-- The name of the gravity. -/
def Gravity.name : Gravity → String
  | reject => "REJECT"
  | fatal => "FATAL"

/-- Why a catalog gives no answer. -/
inductive CatalogError where
  /-- There is no category of the name. -/
  | unknownCategory (name : String)
  /-- The category has no such stage type. -/
  | unknownType (category typeKey : String)
  /-- The definition is no catalog. -/
  | malformed (path reason : String)
  /-- The definition cannot be read. -/
  | unreadable (path reason : String)
  deriving DecidableEq, Repr

namespace CatalogError

/-- The error in words. -/
def message : CatalogError → String
  | unknownCategory name =>
    "Unknown stage category '" ++ name ++ "' (expected source, operator or sink)"
  | unknownType category typeKey =>
    "Unknown stage type '" ++ typeKey ++ "' in category '" ++ category ++ "'"
  | malformed path reason => "Malformed catalog at '" ++ path ++ "': " ++ reason
  | unreadable path reason => "Failed to read catalog '" ++ path ++ "': " ++ reason

/-- The stable code of the error. -/
def code : CatalogError → String
  | unknownCategory _ => "STAGE_UNKNOWN_CATEGORY"
  | unknownType _ _ => "STAGE_UNKNOWN_TYPE"
  | malformed _ _ => "STAGE_CATALOG_MALFORMED"
  | unreadable _ _ => "STAGE_CATALOG_IO"

/-- How much the error concerns. -/
def gravity : CatalogError → Gravity
  | unknownCategory _ | unknownType _ _ => .reject
  | malformed _ _ | unreadable _ _ => .fatal

/-- Whether the catalog is sound and only lacks what was asked for. -/
def isNotFound : CatalogError → Bool
  | unknownCategory _ | unknownType _ _ => true
  | malformed _ _ | unreadable _ _ => false

/-- Whether there is no catalog to ask. -/
def isFatal (e : CatalogError) : Bool := e.gravity == .fatal

end CatalogError

/-- The category of the given name, which must be known. -/
def Category.ofName (name : String) : Except CatalogError Category :=
  match Category.ofName? name with
  | some category => .ok category
  | none => .error (.unknownCategory name)

end PipelineConfig
