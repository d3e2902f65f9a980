import PipelineConfig.Json.Reader

/-!
# Reading strings

A string is read from after its opening quote up to and including its closing
quote. An escape by code names a UTF-16 unit, so that a character beyond the
first `65536` takes two escapes, a leading and a trailing surrogate.
-/

namespace PipelineConfig

/-- The value of a hexadecimal digit in either case. -/
def hexValue (c : Char) : Option Nat :=
  if '0' ≤ c ∧ c ≤ '9' then some (c.toNat - '0'.toNat)
  else if 'a' ≤ c ∧ c ≤ 'f' then some (c.toNat - 'a'.toNat + 10)
  else if 'A' ≤ c ∧ c ≤ 'F' then some (c.toNat - 'A'.toNat + 10)
  else none

/-- The value of hexadecimal digits, the first one most significant. -/
def hexNumber (digits : List Char) : Option Nat :=
  digits.foldl (fun value c => do pure (16 * (← value) + (← hexValue c))) (some 0)

/-- Whether a UTF-16 unit is the first half of a character. -/
def isLeadingSurrogate (unit : Nat) : Bool := 0xD800 ≤ unit && unit ≤ 0xDBFF

/-- Whether a UTF-16 unit is the second half of a character. -/
def isTrailingSurrogate (unit : Nat) : Bool := 0xDC00 ≤ unit && unit ≤ 0xDFFF

/-- The character of two surrogates. -/
def surrogatePair (leading trailing : Nat) : Char :=
  Char.ofNat (0x10000 + 0x400 * (leading - 0xD800) + (trailing - 0xDC00))

/-- The character that a backslash and the given letter stand for. -/
def letterEscape : Char → Option Char
  | '"' => some '"'
  | '\\' => some '\\'
  | '/' => some '/'
  | 'b' => some '\x08'
  | 'f' => some '\x0c'
  | 'n' => some '\n'
  | 'r' => some '\r'
  | 't' => some '\t'
  | _ => none

namespace Reader

/-- The four digits of an escape by code. A text with fewer than four bytes left
is unfinished whatever they are. -/
def escapeCode : Reader Nat := do
  let text ← remaining
  if byteSize text < 4 then after (byteSize text) .stringUnfinished
  else match if (text.take 4).length = 4 then hexNumber (text.take 4) else none with
    | none => after 4 .invalidEscape
    | some code => do set (text.drop 4); pure code

/-- The character that must stand between two surrogates. -/
def betweenSurrogates (expected : Char) : Reader Unit := do
  match ← peek with
  | none => here .stringUnfinished
  | some c => if c = expected then advance else after 1 .unfinishedSurrogate

/-- An escape by code from after its letter. -/
def codeEscape : Reader Char := do
  let unit ← escapeCode
  if isTrailingSurrogate unit then here .loneSurrogate
  else if isLeadingSurrogate unit then
    betweenSurrogates '\\'
    betweenSurrogates 'u'
    let second ← escapeCode
    if isTrailingSurrogate second then pure (surrogatePair unit second)
    else here .loneSurrogate
  else pure (Char.ofNat unit)

/-- An escape from after its backslash. -/
def escape : Reader Char := do
  match ← peek with
  | none => here .stringUnfinished
  | some 'u' => do advance; codeEscape
  | some c =>
    match letterEscape c with
    | some meant => do advance; pure meant
    | none => after 1 .invalidEscape

/-- The next character of a string, or nothing where its closing quote is. -/
def character : Reader (Option Char) := do
  match ← peek with
  | none => here .stringUnfinished
  | some '"' => do advance; pure none
  | some '\\' => do advance; some <$> escape
  | some c => if c.toNat < 32 then after 1 .controlCharacter else do advance; pure (some c)

/-- The characters up to the closing quote, which is at most so many away. -/
def characters : Nat → Reader (List Char)
  | 0 => here .stringUnfinished
  | count + 1 => do
    match ← character with
    | none => pure []
    | some c => do pure (c :: (← characters count))

/-- A string from after its opening quote. -/
def quoted : Reader String := do
  let text ← remaining
  String.ofList <$> characters text.length

end Reader

end PipelineConfig
