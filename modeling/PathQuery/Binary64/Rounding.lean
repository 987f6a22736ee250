import PathQuery.Binary64.Basic

/-!
# Rounding to double precision

`ofRatio` rounds a non-negative quotient to the nearest double, a tie to the even one. Integers
and decimals are quotients of naturals, so `ofInt` and `ofDecimal` are instances of it.
-/

namespace PathQuery.Binary64

/-- The quotient rounded to the nearest natural, a tie to the even one. -/
def roundDiv (num den : Nat) : Nat :=
  let floor := num / den
  match compare (2 * (num % den)) den with
  | .lt => floor
  | .gt => floor + 1
  | .eq => floor + floor % 2

/-- The number at position `rank` when the non-negative numbers are counted upwards from zero.
Everything past the largest finite number is infinity. -/
def ofRank (negative : Bool) (rank : Nat) : Binary64 :=
  { ofBits (min rank (2047 * 0x10000000000000)) with negative }

/-- The binary order of magnitude of a positive quotient: the greatest `e` with
`2 ^ e ≤ num / den`. -/
def magnitude (num den : Nat) : Int :=
  let e : Int := (num.log2 : Int) - den.log2
  if den * Nat.pow 2 e.toNat ≤ num * Nat.pow 2 (-e).toNat then e else e - 1

/-- The double nearest to `num / den`, a tie to the one with an even mantissa. -/
def ofRatio (negative : Bool) (num den : Nat) : Binary64 :=
  if num = 0 then ofRank negative 0
  else
    let scale := max (magnitude num den - 52) (-1074)
    let mantissa := roundDiv (num * Nat.pow 2 (-scale).toNat) (den * Nat.pow 2 scale.toNat)
    ofRank negative ((scale + 1074).toNat * 0x10000000000000 + mantissa)

/-- The double nearest to an integer. -/
def ofInt (n : Int) : Binary64 := ofRatio (n < 0) n.natAbs 1

/-- The double nearest to `digits * 10 ^ exponent`. An exponent far outside the range settles the
answer without computing the power. -/
def ofDecimal (negative : Bool) (digits : Nat) (exponent : Int) : Binary64 :=
  if digits == 0 || digits.log2 + 1 + 3 * exponent < -1080 then ofRank negative 0
  else if exponent > 310 then ofRank negative (2047 * 0x10000000000000)
  else ofRatio negative (digits * Nat.pow 10 exponent.toNat) (Nat.pow 10 (-exponent).toNat)

end PathQuery.Binary64
