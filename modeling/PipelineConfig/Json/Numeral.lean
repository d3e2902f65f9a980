import PipelineConfig.Json.Reader

/-!
# Reading numbers

A numeral is taken apart into its digits first and given a value afterwards. An
integer that fits 64 bits is exact. All else becomes a floating-point number in
two roundings: the significand keeps as many leading digits as fit 64 bits, and
is then scaled by a power of ten.
-/

namespace PipelineConfig

/-- A numeral as written. -/
structure Numeral where
  /-- Whether a minus sign stands in front. -/
  negative : Bool
  /-- The digits before the point. -/
  whole : List Nat
  /-- The digits after the point; a numeral without them has no point. -/
  fraction : List Nat
  /-- The sign and the digits of the exponent, if one is written. -/
  exponent : Option (Bool × List Nat)
  deriving DecidableEq, Repr

/-- The digits of a significand that were kept, and the power of ten that makes
up for the others. -/
structure Significand where
  /-- The digits kept, as a number. -/
  value : Nat
  /-- The power of ten that it counts. -/
  power : Int
  deriving DecidableEq, Repr

namespace Significand

/-- The least number that is too large for a significand. -/
def limit : Nat := Nat.pow 2 64

/-- Digits before the point. From the first one that does not fit, each digit
only raises the power. -/
def ofWhole (digits : List Nat) : Significand :=
  digits.foldl (fun s d =>
    if s.power = 0 ∧ 10 * s.value + d < limit then ⟨10 * s.value + d, 0⟩
    else ⟨s.value, s.power + 1⟩) ⟨0, 0⟩

/-- Digits after the point, up to the first one that does not fit. -/
def withFraction (s : Significand) : List Nat → Significand
  | [] => s
  | d :: digits =>
    if 10 * s.value + d < limit then withFraction ⟨10 * s.value + d, s.power - 1⟩ digits else s

end Significand

namespace Binary64

/-- The rounded power of ten; beyond `10 ^ 308` there is none. -/
def powerOfTen (n : Nat) : Option Binary64 := ofRatio false (Nat.pow 10 n) 1

/-- The quotient by a power of ten, in steps of at most `10 ^ 308`. Division stops
once the quotient is zero. -/
def dividePower (x : Binary64) (n : Nat) : Option Binary64 :=
  if x.isZero then some x
  else if n ≤ 308 then do x.div (← powerOfTen n)
  else do (← x.div (← powerOfTen 308)).dividePower (n - 308)
termination_by n

/-- The product with a power of ten, if it is finite. -/
def multiplyPower (x : Binary64) (n : Nat) : Option Binary64 :=
  if x.isZero then some x
  else if n ≤ 308 then do x.mul (← powerOfTen n)
  else none

/-- A significand with its sign as a floating-point number, if it is finite. -/
def ofSignificand (negative : Bool) (s : Significand) : Option Binary64 := do
  let x ← ofRatio negative s.value 1
  if s.power < 0 then x.dividePower s.power.natAbs else x.multiplyPower s.power.natAbs

end Binary64

namespace Numeral

/-- The greatest exponent that is taken at its word. -/
def greatestExponent : Nat := Nat.pow 2 31 - 1

/-- The number that digits write, if no more than the first digits go beyond the
greatest exponent; else how many digits are left at that point. -/
def exponentValue (digits : List Nat) : Except Nat Nat :=
  go 0 digits
where
  /-- The number of the digits so far, and the digits to come. -/
  go (value : Nat) : List Nat → Except Nat Nat
    | [] => .ok value
    | d :: rest =>
      if greatestExponent < 10 * value + d then .error rest.length
      else go (10 * value + d) rest

/-- The value of a numeral. If it is out of range, the error tells how many of
its digits lay unread when that was certain. -/
def value (n : Numeral) : Except Nat Number :=
  let whole := Significand.ofWhole n.whole
  let float (s : Significand) : Except Nat Number :=
    match Binary64.ofSignificand n.negative s with
    | some x => .ok (.float x)
    | none => .error 0
  match n.exponent with
  | some (down, digits) =>
    let s := whole.withFraction n.fraction
    match exponentValue digits with
    | .ok e => float ⟨s.value, if down then s.power - e else s.power + e⟩
    | .error unread =>
      if s.value = 0 ∨ down then .ok (.float (.zero n.negative)) else .error unread
  | none =>
    if n.fraction ≠ [] then float (whole.withFraction n.fraction)
    else if whole.power ≠ 0 then float whole
    else if n.negative then
      if whole.value = 0 ∨ Nat.pow 2 63 < whole.value then float whole
      else .ok (.integer (-(whole.value : Int)))
    else .ok (.integer whole.value)

end Numeral

namespace Reader

/-- The value of a decimal digit. -/
def digitValue (c : Char) : Nat := c.toNat - '0'.toNat

/-- All digits at the front of the text. -/
def digits : Reader (List Nat) := fun text =>
  .ok ((text.takeWhile Char.isDigit).map digitValue, text.dropWhile Char.isDigit)

/-- The digits before the point: at least one, and more only if the first one is
not zero. At the end of the text the problem is `unfinished`. -/
def wholeDigits (unfinished : Problem) : Reader (List Nat) := do
  match ← peek with
  | none => here unfinished
  | some '0' => do
    advance
    match ← peek with
    | some c => if c.isDigit then ahead .invalidNumber else pure [0]
    | none => pure [0]
  | some c => if c.isDigit then digits else after 1 .invalidNumber

/-- The point and the digits after it, if there is a point. -/
def fractionDigits (unfinished : Problem) : Reader (List Nat) := do
  match ← peek with
  | some '.' => do
    advance
    match ← digits with
    | [] => do
      match ← peek with
      | none => here unfinished
      | some _ => ahead .invalidNumber
    | found => pure found
  | _ => pure []

/-- The exponent, if there is one. -/
def exponent (unfinished : Problem) : Reader (Option (Bool × List Nat)) := do
  match ← peek with
  | some 'e' => do advance; some <$> signed
  | some 'E' => do advance; some <$> signed
  | _ => pure none
where
  /-- An exponent from after its letter. -/
  signed : Reader (Bool × List Nat) := do
    match ← peek with
    | some '+' => do advance; pure (false, ← atLeastOne)
    | some '-' => do advance; pure (true, ← atLeastOne)
    | _ => pure (false, ← atLeastOne)
  /-- The digits of an exponent. -/
  atLeastOne : Reader (List Nat) := do
    match ← peek with
    | none => here unfinished
    | some c => if c.isDigit then digits else after 1 .invalidNumber

/-- A numeral from after its sign. -/
def numeral (unfinished : Problem) (negative : Bool) : Reader Numeral := do
  let whole ← wholeDigits unfinished
  let fraction ← fractionDigits unfinished
  pure ⟨negative, whole, fraction, ← exponent unfinished⟩

/-- A number from after its sign. -/
def number (negative : Bool) : Reader Number := do
  let written ← numeral .valueMissing negative
  match written.value with
  | .ok n => pure n
  | .error unread => fun text => .error ⟨.numberOutOfRange, byteSize text + unread⟩

end Reader

end PipelineConfig
