import PipelineConfig.Binary64.Shortest

/-!
# Spelling of binary64 numbers

Shortest digits are written positionally while the decimal point falls among
them or close by, and with an exponent otherwise. A number always shows that it
is not an integer: it has a point or an exponent.
-/

namespace PipelineConfig.Binary64

/-- Digits as text. -/
def digitText (digits : List Nat) : String := String.ofList (digits.map Nat.digitChar)

/-- Digits, point and exponent of a positive decimal. Up to sixteen digits stand
before the point, and up to four zeros right after it. -/
def Decimal.text (d : Decimal) : String :=
  let count : Int := d.digits.length
  if 0 < d.point ∧ d.point ≤ 16 then
    let whole := d.point.toNat
    if count ≤ d.point then
      digitText (d.digits ++ List.replicate (d.point - count).toNat 0) ++ ".0"
    else digitText (d.digits.take whole) ++ "." ++ digitText (d.digits.drop whole)
  else if -5 < d.point ∧ d.point ≤ 0 then
    "0." ++ digitText (List.replicate (-d.point).toNat 0 ++ d.digits)
  else
    let exponent := d.point - 1
    let fraction := if d.digits.length ≤ 1 then "" else "." ++ digitText (d.digits.drop 1)
    let sign := if exponent < 0 then "-" else "+"
    digitText (d.digits.take 1) ++ fraction ++ "e" ++ sign ++ toString exponent.natAbs

/-- The number as text: sign, then `0.0` or the shortest decimal. -/
def text (x : Binary64) : String :=
  (if x.negative then "-" else "") ++ (if x.isZero then "0.0" else (shortest x.rank).text)

end PipelineConfig.Binary64
