/-!
# Finite binary64 numbers

A magnitude is kept as its rank among the finite magnitudes in increasing
order, which is also the lower 63 bits of its stored word. Every magnitude is a
whole multiple of `2 ^ -1074`, and `units` says which multiple. Rounding and
arithmetic are exact on natural numbers until the one rounding at the end,
which takes the nearest magnitude and of two nearest the one with even rank.
-/

namespace PipelineConfig

/-- A finite binary64 number. -/
structure Binary64 where
  /-- Whether the number carries a minus sign; a zero may carry one too. -/
  negative : Bool
  /-- The place of the magnitude among the finite magnitudes, zero first. -/
  rank : Nat
  /-- Ranks from here on would be infinite. -/
  rank_lt : rank < 2047 * Nat.pow 2 52
  deriving DecidableEq, Repr

/-- The whole number nearest to `num / den`; a half goes to the even neighbour. -/
def roundHalfEven (num den : Nat) : Nat :=
  let whole := num / den
  let left := num % den
  if 2 * left < den then whole
  else if den < 2 * left then whole + 1
  else whole + whole % 2

namespace Binary64

/-- Magnitudes of rank `r` are spaced by two to this power, in units. -/
def scale (r : Nat) : Nat := r / Nat.pow 2 52 - 1

/-- The magnitude of rank `r` as a multiple of `2 ^ -1074`. -/
def units (r : Nat) : Nat := (r - scale r * Nat.pow 2 52) * Nat.pow 2 (scale r)

/-- The rank of the magnitude nearest to `num / den`, without an upper limit. -/
def nearestRank (num den : Nat) : Nat :=
  let scaled := num * Nat.pow 2 1074
  let drop := Nat.log2 (scaled / den) - 52
  drop * Nat.pow 2 52 + roundHalfEven scaled (den * Nat.pow 2 drop)

/-- The number nearest to `num / den` with the given sign, if it is finite. -/
def ofRatio (negative : Bool) (num den : Nat) : Option Binary64 :=
  if h : nearestRank num den < 2047 * Nat.pow 2 52 then some ⟨negative, nearestRank num den, h⟩
  else none

/-- Zero with the given sign. -/
def zero (negative : Bool) : Binary64 := ⟨negative, 0, by decide⟩

/-- Whether the number is a zero of either sign. -/
def isZero (x : Binary64) : Bool := x.rank == 0

/-- The rank with its sign: numbers are ordered as these are. -/
def order (x : Binary64) : Int := if x.negative then -(x.rank : Int) else x.rank

/-- Numeric equality, for which the two zeros are one number. -/
def same (x y : Binary64) : Bool := x.order == y.order

/-- Whether the number is whole. -/
def isWhole (x : Binary64) : Bool := units x.rank % Nat.pow 2 1074 == 0

/-- The rounded product, if it is finite. -/
def mul (x y : Binary64) : Option Binary64 :=
  ofRatio (x.negative != y.negative) (units x.rank * units y.rank) (Nat.pow 2 2148)

/-- The rounded quotient by a number other than zero, if it is finite. -/
def div (x y : Binary64) : Option Binary64 :=
  ofRatio (x.negative != y.negative) (units x.rank) (units y.rank)

end Binary64

end PipelineConfig
