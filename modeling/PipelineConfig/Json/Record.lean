import PipelineConfig.Json.Skip

/-!
# Reading records

A record is written as an object of its fields in any order, or as the array of
their values in the order of the fields. Each field has a reader of its own, so
that a value of the wrong form is found where it stands. What is wrong with the
record as a whole is reported for the place after it, as far as that is reached.
-/

namespace PipelineConfig.Reader

variable {α σ : Type}

/-- Complains about the value that comes next. A scalar is read first; a container
is left unread. -/
def mismatch (expected : String) : Reader α := do
  match ← peekPastSpace with
  | none => ahead .valueMissing
  | some 'n' => do advance; word "ull".toList; complain (.wrongType .null expected)
  | some 't' => do advance; word "rue".toList; complain (.wrongType (.bool true) expected)
  | some 'f' => do advance; word "alse".toList; complain (.wrongType (.bool false) expected)
  | some '"' => do advance; complain (.wrongType (.string (← quoted)) expected)
  | some '-' => do advance; complain (.wrongType (.number (← number true)) expected)
  | some '[' => complain (.wrongType .sequence expected)
  | some '\x7b' => complain (.wrongType .map expected)
  | some c =>
    if c.isDigit then do complain (.wrongType (.number (← number false)) expected)
    else ahead .valueExpected

/-- A text. -/
def textValue (expected : String) : Reader String := do
  match ← peekPastSpace with
  | some '"' => do advance; quoted
  | _ => mismatch expected

/-- A text or null. -/
def optionalText (expected : String) : Reader (Option String) := do
  match ← peekPastSpace with
  | some 'n' => do advance; word "ull".toList; pure none
  | _ => some <$> textValue expected

/-- A null. -/
def nullValue (expected : String) : Reader Unit := do
  match ← peekPastSpace with
  | some 'n' => do advance; word "ull".toList
  | _ => mismatch expected

/-- A number of things. -/
def size : Reader Nat := do
  match ← peekPastSpace with
  | some '-' => do advance; check (← number true)
  | some c => if c.isDigit then do check (← number false) else mismatch expected
  | none => mismatch expected
where
  /-- What complaints call a number of things. -/
  expected : String := "usize"
  /-- An integer must not be negative, and no other number will do. -/
  check : Number → Reader Nat
    | .integer (.ofNat n) => pure n
    | .integer n => complain (.wrongValue (.number (.integer n)) expected)
    | .float x => complain (.wrongType (.number (.float x)) expected)

/-- A field of a record of type `σ`. -/
structure Field (σ : Type) where
  /-- The name of the field. -/
  name : String
  /-- Whether the field may be left out. -/
  optional : Bool
  /-- Reads a value and sets the field to it. -/
  read : Reader (σ → σ)

/-- How a record of type `σ` is written. -/
structure Form (σ : Type) where
  /-- What complaints call the record. -/
  name : String
  /-- The fields in their order. -/
  fields : List (Field σ)
  /-- Whether no other fields may be written. -/
  closed : Bool
  /-- The record before any field is set. -/
  start : σ

/-- Complains about a whole record, which ends with the given character. -/
def complainPast (close : Char) (complaint : Complaint) : Reader α := do
  match ← peekPastSpace with
  | some c => do
    if c = close then advance
    complain complaint
  | none => complain complaint

namespace Form

/-- Reads the members of a record, of which those in `seen` have been read. Each
takes at least one character of the text, of which there are `fuel`. -/
def members (form : Form σ) : (fuel : Nat) → (first : Bool) → (seen : List String) →
    (record : σ) → Reader σ
  | 0, _, _, _ => ahead .objectUnfinished
  | fuel + 1, first, seen, record => do
    if ← anotherMember first then
      advance
      let key ← quoted
      match form.fields.find? fun field => field.name == key with
      | some field =>
        if seen.contains key then complainPast '\x7d' (.duplicateField key)
        else
          colon
          let set ← field.read
          form.members fuel false (key :: seen) (set record)
      | none =>
        if form.closed then
          complainPast '\x7d' (.unknownField key (form.fields.map Field.name))
        else
          colon
          skipValue
          form.members fuel false seen record
    else
      match form.fields.find? fun field => !field.optional && !seen.contains field.name with
      | some field => complainPast '\x7d' (.missingField field.name)
      | none =>
        advance
        pure record

/-- Reads the values of the fields that are left, `count` having been read. -/
def elements (form : Form σ) : (count : Nat) → (left : List (Field σ)) → (record : σ) →
    Reader σ
  | _, [], record => pure record
  | count, field :: left, record => do
    if ← anotherElement (count == 0) then
      let set ← field.read
      form.elements (count + 1) left (set record)
    else if field.optional then form.elements count left record
    else
      complainPast ']' (.wrongLength (form.fields.length - (field :: left).length)
        (form.name ++ " with " ++ toString form.fields.length ++ " elements"))

/-- Takes the end of a record written as an array. -/
def elementsEnd : Reader Unit := do
  match ← peekPastSpace with
  | none => ahead .listUnfinished
  | some ']' => advance
  | some ',' => do
    advance
    match ← peekPastSpace with
    | some ']' => ahead .trailingComma
    | _ => ahead .trailingText
  | some _ => ahead .trailingText

/-- Reads a record. -/
def read (form : Form σ) : Reader σ := do
  match ← peekPastSpace with
  | some '[' => do
    advance
    let record ← form.elements 0 form.fields form.start
    elementsEnd
    pure record
  | some '\x7b' => do
    advance
    form.members (← remaining).length true [] form.start
  | _ => mismatch form.name

end Form

end PipelineConfig.Reader
