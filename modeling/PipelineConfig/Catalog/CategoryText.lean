import PipelineConfig.Catalog.Category
import PipelineConfig.Json.Record

/-!
# Reading categories

A category is written as its name, or as an object that gives its name a null.
-/

namespace PipelineConfig.Category

open Reader

/-- The category of a name that was read. -/
def known (name : String) : Reader Category :=
  match ofName? name with
  | some category => pure category
  | none => complain (.unknownVariant name (all.map Category.name))

/-- Reads a category. -/
def reader : Reader Category := do
  match ← peekPastSpace with
  | none => ahead .valueMissing
  | some '"' => do advance; known (← quoted)
  | some '\x7b' => do
    advance
    if ← anotherMember true then
      advance
      let category ← known (← quoted)
      colon
      nullValue "unit"
      match ← peekPastSpace with
      | none => here .objectUnfinished
      | some '\x7d' => do advance; pure category
      | some _ => here .valueExpected
    else ahead .valueExpected
  | some _ => ahead .valueExpected

/-- Reads a text that holds one category. -/
def parse (text : String) : Except TextError Category := reader.run text

/-- The category as JSON. -/
def toJson (category : Category) : Json := .string category.name

end PipelineConfig.Category
