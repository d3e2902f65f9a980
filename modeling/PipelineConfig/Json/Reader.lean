import PipelineConfig.Json.Complaint

/-!
# Reading text

A reader takes characters off the front of a text. A failure records how many
bytes of the text lay unread at the place it is reported for; the line and the
column follow from that and the text. Some problems are reported for the place
reached so far (`here`), others for the byte that comes next (`ahead`), which at
the end of the text is the same place.
-/

namespace PipelineConfig

/-- What is wrong with a text. -/
inductive Problem where
  /-- The text ends inside an array. -/
  | listUnfinished
  /-- The text ends inside an object. -/
  | objectUnfinished
  /-- The text ends inside a string. -/
  | stringUnfinished
  /-- The text ends where a value should be. -/
  | valueMissing
  /-- A key is not followed by a colon. -/
  | colonExpected
  /-- An element is followed neither by a comma nor by the end of its array. -/
  | listEndExpected
  /-- A member is followed neither by a comma nor by the end of its object. -/
  | objectEndExpected
  /-- A word starts like one of the three known words and goes on differently. -/
  | wordExpected
  /-- No value starts this way. -/
  | valueExpected
  /-- An object's key is not a string. -/
  | keyExpected
  /-- A backslash is followed by no known escape. -/
  | invalidEscape
  /-- A number is not written as numbers are. -/
  | invalidNumber
  /-- A number is too large to be finite. -/
  | numberOutOfRange
  /-- A surrogate escape has no partner. -/
  | loneSurrogate
  /-- A leading surrogate is not followed by another escape. -/
  | unfinishedSurrogate
  /-- A control character stands in a string as it is. -/
  | controlCharacter
  /-- A comma is followed by the end of its container. -/
  | trailingComma
  /-- Something follows the value. -/
  | trailingText
  /-- Too many containers are open. -/
  | tooNested
  /-- The text is sound so far, but not of the form asked for. -/
  | form (complaint : Complaint)
  deriving DecidableEq, Repr

/-- The problem in words. -/
def Problem.message : Problem → String
  | .listUnfinished => "EOF while parsing a list"
  | .objectUnfinished => "EOF while parsing an object"
  | .stringUnfinished => "EOF while parsing a string"
  | .valueMissing => "EOF while parsing a value"
  | .colonExpected => "expected `:`"
  | .listEndExpected => "expected `,` or `]`"
  | .objectEndExpected => "expected `,` or `\x7d`"
  | .wordExpected => "expected ident"
  | .valueExpected => "expected value"
  | .keyExpected => "key must be a string"
  | .invalidEscape => "invalid escape"
  | .invalidNumber => "invalid number"
  | .numberOutOfRange => "number out of range"
  | .loneSurrogate => "lone leading surrogate in hex escape"
  | .unfinishedSurrogate => "unexpected end of hex escape"
  | .controlCharacter => "control character (\\u0000-\\u001F) found while parsing a string"
  | .trailingComma => "trailing comma"
  | .trailingText => "trailing characters"
  | .tooNested => "recursion limit exceeded"
  | .form complaint => complaint.message

/-- A problem and how much of the text lay unread at its place. -/
structure Failure where
  /-- What is wrong. -/
  problem : Problem
  /-- The number of unread bytes. -/
  unread : Nat
  deriving DecidableEq, Repr

/-- The size of a text in bytes. -/
def byteSize (text : List Char) : Nat := text.foldr (fun c size => c.utf8Size + size) 0

/-- A place in a text. -/
structure Position where
  /-- The line, counted from one. -/
  line : Nat
  /-- The number of bytes of the line before the place. -/
  column : Nat
  deriving DecidableEq, Repr

/-- The place so many bytes further on. -/
def Position.advance (place : Position) : (bytes : Nat) → List Char → Position
  | 0, _ => place
  | _, [] => place
  | bytes, c :: rest =>
    if c = '\n' then Position.advance ⟨place.line + 1, 0⟩ (bytes - 1) rest
    else if bytes < c.utf8Size then ⟨place.line, place.column + bytes⟩
    else Position.advance ⟨place.line, place.column + c.utf8Size⟩ (bytes - c.utf8Size) rest

/-- A problem at a place. -/
structure TextError where
  /-- What is wrong. -/
  problem : Problem
  /-- Where it is. -/
  place : Position
  deriving DecidableEq, Repr

/-- The problem and its place in words. -/
def TextError.message (e : TextError) : String :=
  e.problem.message ++ " at line " ++ toString e.place.line ++ " column " ++
    toString e.place.column

/-- A failure seen in the whole text that was read. -/
def Failure.locate (text : List Char) (f : Failure) : TextError :=
  ⟨f.problem, Position.advance ⟨1, 0⟩ (byteSize text - f.unread) text⟩

/-- A computation that takes characters off the front of a text. -/
abbrev Reader := StateT (List Char) (Except Failure)

namespace Reader

variable {α : Type}

/-- Fails at the place reached. -/
def here (problem : Problem) : Reader α := fun text => .error ⟨problem, byteSize text⟩

/-- Fails at the next byte. -/
def ahead (problem : Problem) : Reader α := fun text => .error ⟨problem, byteSize text - 1⟩

/-- Fails after so many more bytes. -/
def after (bytes : Nat) (problem : Problem) : Reader α := fun text =>
  .error ⟨problem, byteSize text - bytes⟩

/-- Fails at the place reached because the value has the wrong form. -/
def complain (complaint : Complaint) : Reader α := here (.form complaint)

/-- Whether a character may stand between the parts of a value. -/
def isSpace (c : Char) : Bool := c == ' ' || c == '\n' || c == '\r' || c == '\t'

/-- The next character, if there is one, which stays unread. -/
def peek : Reader (Option Char) := fun text => .ok (text.head?, text)

/-- Takes the space off the front and looks at the next character. -/
def peekPastSpace : Reader (Option Char) := fun text =>
  let rest := text.dropWhile isSpace
  .ok (rest.head?, rest)

/-- Takes one character off the front. -/
def advance : Reader Unit := fun text => .ok ((), text.tail)

/-- The characters that are left. -/
def remaining : Reader (List Char) := fun text => .ok (text, text)

/-- Takes the characters of a known word off the front. The first letter that
differs is read too. -/
def word : List Char → Reader Unit
  | [] => pure ()
  | expected :: others => do
    match ← peek with
    | none => here .valueMissing
    | some c => if c = expected then do advance; word others else after 1 .wordExpected

/-- Reads a value that only space may follow. -/
def whole (reader : Reader α) : Reader α := do
  let value ← reader
  match ← peekPastSpace with
  | none => pure value
  | some _ => ahead .trailingText

/-- Reads a whole text. -/
def run (reader : Reader α) (text : String) : Except TextError α :=
  match whole reader text.toList with
  | .ok (value, _) => .ok value
  | .error failure => .error (failure.locate text.toList)

/-- Whether an array goes on, looking from its start or from after an element.
The end of the array stays unread. -/
def anotherElement (first : Bool) : Reader Bool := do
  match ← peekPastSpace with
  | none => ahead .listUnfinished
  | some ']' => pure false
  | some c =>
    if first then pure true
    else if c = ',' then
      advance
      match ← peekPastSpace with
      | none => ahead .valueMissing
      | some ']' => ahead .trailingComma
      | some _ => pure true
    else ahead .listEndExpected

/-- Whether an object goes on, looking from its start or from after a member;
if so, the quote that opens the key comes next. The end of the object stays
unread. -/
def anotherMember (first : Bool) : Reader Bool := do
  match ← peekPastSpace with
  | none => ahead .objectUnfinished
  | some '\x7d' => pure false
  | some c =>
    if first then key c
    else if c = ',' then
      advance
      match ← peekPastSpace with
      | none => ahead .valueMissing
      | some '\x7d' => ahead .trailingComma
      | some k => key k
    else ahead .objectEndExpected
where
  /-- A key starts with a quote. -/
  key (c : Char) : Reader Bool := if c = '"' then pure true else ahead .keyExpected

/-- Takes the colon after a key. -/
def colon : Reader Unit := do
  match ← peekPastSpace with
  | none => ahead .objectUnfinished
  | some ':' => advance
  | some _ => ahead .colonExpected

end Reader

end PipelineConfig
