import PipelineConfig.Json.Numeral
import PipelineConfig.Json.Quoted

/-!
# Passing over values

A value that nobody asks for is passed over: its text is checked, but nothing is
made of it. Containers may then be nested to any depth, numbers may have any
size, and surrogates need no partner.
-/

namespace PipelineConfig.Reader

/-- Passes over an escape from after its backslash. -/
def skipEscape : Reader Unit := do
  match ← peek with
  | none => here .stringUnfinished
  | some 'u' => do advance; let _ ← escapeCode
  | some c => if (letterEscape c).isSome then advance else after 1 .invalidEscape

/-- Passes over characters up to a closing quote, which is at most so many away. -/
def skipCharacters : Nat → Reader Unit
  | 0 => here .stringUnfinished
  | count + 1 => do
    match ← peek with
    | none => here .stringUnfinished
    | some '"' => advance
    | some '\\' => do advance; skipEscape; skipCharacters count
    | some c =>
      if c.toNat < 32 then here .controlCharacter else do advance; skipCharacters count

/-- Passes over a string from after its opening quote. -/
def skipString : Reader Unit := do skipCharacters (← remaining).length

/-- Passes over the key of a member and its colon. -/
def skipKey : Reader Unit := do
  match ← peekPastSpace with
  | none => ahead .objectUnfinished
  | some '"' => do advance; skipString; colon
  | some _ => ahead .keyExpected

mutual

/-- Passes over a value. A character takes at most two steps of the `fuel`. -/
def skipWithin : (fuel : Nat) → Reader Unit
  | 0 => ahead .valueMissing
  | fuel + 1 => do
    match ← peekPastSpace with
    | none => ahead .valueMissing
    | some 'n' => do advance; word "ull".toList
    | some 't' => do advance; word "rue".toList
    | some 'f' => do advance; word "alse".toList
    | some '"' => do advance; skipString
    | some '-' => do advance; let _ ← numeral .invalidNumber true
    | some '[' => do
      advance
      match ← peekPastSpace with
      | none => ahead .listUnfinished
      | some ']' => advance
      | some _ => skipElements fuel
    | some '\x7b' => do
      advance
      match ← peekPastSpace with
      | none => ahead .objectUnfinished
      | some '\x7d' => advance
      | some _ => skipMembers fuel
    | some c =>
      if c.isDigit then do let _ ← numeral .invalidNumber false else ahead .valueExpected

/-- Passes over one element and all after it, up to the end of their array. -/
def skipElements : (fuel : Nat) → Reader Unit
  | 0 => ahead .listUnfinished
  | fuel + 1 => do
    skipWithin fuel
    match ← peekPastSpace with
    | none => ahead .listUnfinished
    | some ']' => advance
    | some ',' => do advance; skipElements fuel
    | some _ => ahead .listEndExpected

/-- Passes over one member and all after it, up to the end of their object. -/
def skipMembers : (fuel : Nat) → Reader Unit
  | 0 => ahead .objectUnfinished
  | fuel + 1 => do
    skipKey
    skipWithin fuel
    match ← peekPastSpace with
    | none => ahead .objectUnfinished
    | some '\x7d' => advance
    | some ',' => do advance; skipMembers fuel
    | some _ => ahead .objectEndExpected

end

/-- Passes over a value. -/
def skipValue : Reader Unit := do skipWithin (2 * (← remaining).length + 2)

end PipelineConfig.Reader
