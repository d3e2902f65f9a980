import PipelineConfig.Binary64.Basic

/-!
# Shortest decimals

The digits written for a magnitude are the fewest that read back as it. The
values that round to a magnitude form an interval between the midpoints to its
two neighbours, and the midpoints belong to it exactly when its rank is even.
For one digit, two digits and so on, the two points of the decimal grid that
enclose the magnitude are tried; the first grid with a point in the interval
gives the digits.
-/

namespace PipelineConfig.Binary64

/-- A positive decimal `0.d₁d₂…dₙ × 10 ^ point`. -/
structure Decimal where
  /-- The digits from the first, which is not zero, to the last. -/
  digits : List Nat
  /-- How far the decimal point stands to the right of the first digit's left. -/
  point : Int
  deriving DecidableEq, Repr

/-- Whether `num / den`, in halves of a unit, rounds to the magnitude of rank
`r`. The lower end of the interval of rank zero is never asked for. -/
def roundsTo (r num den : Nat) : Bool :=
  let below := (units (r - 1) + units r) * den
  let above := (units r + units (r + 1)) * den
  if r % 2 == 0 then below ≤ num && num ≤ above else below < num && num < above

/-- The decimal digits of `n` without the zeros at its end. -/
def significantDigits (n : Nat) : List Nat :=
  ((Nat.toDigits 10 n).map fun c => c.toNat - '0'.toNat).reverse.dropWhile (· == 0) |>.reverse

/-- The number of decimal digits of the whole part of a magnitude, or minus the
number of zeros that follow the point: `num / den < 10 ^ k`, and
`10 ^ (k - 1) ≤ num / den`. -/
def decimalPoint (num den : Nat) : Int :=
  if den ≤ num then ((Nat.toDigits 10 (num / den)).length : Int)
  else 1 - ((Nat.toDigits 10 ((den + num - 1) / num - 1)).length : Int)

/-- The point of the grid with `count` digits that reads back as rank `r` and is
nearest to it, if the grid has one; of two as near, the one that is even. -/
def onGrid (r : Nat) (point : Int) (count : Nat) : Option Decimal :=
  -- One step of the grid is `10 ^ (point - count)`; `up / down` converts to steps.
  let shift := (count : Int) - point
  let up := Nat.pow 10 shift.toNat
  let down := Nat.pow 10 (-shift).toNat
  let num := units r * up
  let den := Nat.pow 2 1074 * down
  let low := num / den
  let reads (n : Nat) : Bool := roundsTo r (2 * n * Nat.pow 2 1074 * down) up
  let decimal (n : Nat) : Decimal :=
    ⟨significantDigits n, if n == Nat.pow 10 count then point + 1 else point⟩
  let nearest := roundHalfEven num den
  let other := if nearest == low then low + 1 else low
  if reads nearest then some (decimal nearest)
  else if reads other then some (decimal other)
  else none

/-- The shortest decimal of the positive magnitude of rank `r`. Seventeen digits
always suffice. -/
def shortest (r : Nat) : Decimal :=
  let point := decimalPoint (units r) (Nat.pow 2 1074)
  ((List.range 17).findSome? fun n => onGrid r point (n + 1)).getD ⟨[], point⟩

end PipelineConfig.Binary64
