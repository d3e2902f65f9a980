import PipelineConfig.Json.Numeral
import PipelineConfig.Json.Quoted

/-!
# Reading JSON values

A text holds one value, with space around it. At most `127` containers may be
open at once. An object that repeats a key keeps the first place and the last
value of it, so that the keys of a value that was read are distinct.
-/

namespace PipelineConfig

namespace Reader

/-- The elements of an array, up to its end. Each takes at least one character
of the text, of which there are `fuel`. -/
def elements (element : Reader Json) : (fuel : Nat) → (first : Bool) → Reader (List Json)
  | 0, _ => ahead .listUnfinished
  | fuel + 1, first => do
    if ← anotherElement first then
      let v ← element
      pure (v :: (← elements element fuel false))
    else
      advance
      pure []

/-- The members of an object, up to its end. -/
def members (value : Reader Json) : (fuel : Nat) → (first : Bool) →
    Reader (List (String × Json))
  | 0, _ => ahead .objectUnfinished
  | fuel + 1, first => do
    if ← anotherMember first then
      advance
      let key ← quoted
      colon
      let v ← value
      pure ((key, v) :: (← members value fuel false))
    else
      advance
      pure []

/-- A value whose elements and members, if it may have any, are read by
`inner`. -/
def valueAround (inner : Option (Reader Json)) : Reader Json := do
  match ← peekPastSpace with
  | none => ahead .valueMissing
  | some 'n' => do advance; word "ull".toList; pure .null
  | some 't' => do advance; word "rue".toList; pure (.bool true)
  | some 'f' => do advance; word "alse".toList; pure (.bool false)
  | some '"' => do advance; .string <$> quoted
  | some '-' => do advance; .number <$> number true
  | some '[' =>
    match inner with
    | none => ahead .tooNested
    | some element => do
      advance
      .array <$> elements element (← remaining).length true
  | some '\x7b' =>
    match inner with
    | none => ahead .tooNested
    | some value => do
      advance
      (fun found => .object (Members.collect found)) <$>
        members value (← remaining).length true
  | some c => if c.isDigit then .number <$> number false else ahead .valueExpected

/-- A value in which at most so many containers are open at once. -/
def value : (budget : Nat) → Reader Json
  | 0 => valueAround none
  | budget + 1 => valueAround (some (value budget))

end Reader

/-- The number of containers that may be open at once in a text. -/
def Json.maxNesting : Nat := 127

/-- Reads a text that holds one value. -/
def Json.parse (text : String) : Except TextError Json :=
  (Reader.value Json.maxNesting).run text

end PipelineConfig
