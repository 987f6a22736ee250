import PathQuery.Binary64.Basic

/-!
# Shortest decimals

`shortest` selects the decimal with the fewest digits that reads back as a given double: the first
decimal grid that has a point in the interval of reals rounding to the number, and on that grid
the point closest to it. Where the two neighbours on the grid are equally close, the format that
is being written decides.
-/

namespace PathQuery

/-- The decimal `digits * 10 ^ exponent`. -/
structure Decimal where
  digits : Nat
  exponent : Int
deriving DecidableEq

namespace Decimal

/-- Where a digit goes that lies exactly between two neighbours. -/
inductive Tie where
  | toEven
  | up
deriving DecidableEq

/-- The order of `a * 10 ^ i` and `n * 2 ^ j`. -/
def cmpBinary (a : Nat) (i : Int) (n : Nat) (j : Int) : Ordering :=
  compare (a * Nat.pow 10 i.toNat * Nat.pow 2 (-j).toNat)
    (n * Nat.pow 2 j.toNat * Nat.pow 10 (-i).toNat)

/-- The decimal lies among the reals that round to `x`. The ends of that interval belong to it
exactly when the mantissa is even. -/
def readsBackAs (d : Decimal) (x : Binary64) : Bool :=
  let low := if x.narrowBelow then 4 * x.mantissa - 1 else 4 * x.mantissa - 2
  let high := 4 * x.mantissa + 2
  let closed := x.mantissa % 2 == 0
  let below := cmpBinary d.digits d.exponent low (x.scale - 2)
  let above := cmpBinary d.digits d.exponent high (x.scale - 2)
  (below == .gt || closed && below == .eq) && (above == .lt || closed && above == .eq)

/-- The least `k` with `x < 10 ^ k`, estimated from the binary logarithm and then corrected. -/
def scaleOf (x : Binary64) : Int :=
  let estimate := (((x.mantissa.log2 : Int) + x.scale) * 30103).fdiv 100000
  let candidates := (List.range 4).map fun (n : Nat) => estimate - 1 + n
  (candidates.find? fun k => cmpBinary 1 k x.mantissa x.scale == .gt).getD (estimate + 3)

/-- The point of the grid `10 ^ grid` that stands for `x`, if one of its two neighbours there
does. -/
def onGrid (tie : Tie) (x : Binary64) (grid : Int) : Option Decimal :=
  let num := x.mantissa * Nat.pow 2 x.scale.toNat * Nat.pow 10 (-grid).toNat
  let den := Nat.pow 2 (-x.scale).toNat * Nat.pow 10 grid.toNat
  let floor := num / den
  let lower : Decimal := ⟨floor, grid⟩
  let upper : Decimal := ⟨floor + 1, grid⟩
  match lower.readsBackAs x, upper.readsBackAs x with
  | true, true =>
    match compare (2 * (num % den)) den, tie with
    | .lt, _ => some lower
    | .gt, _ => some upper
    | .eq, .toEven => some (if floor % 2 == 0 then lower else upper)
    | .eq, .up => some upper
  | true, false => some lower
  | false, true => some upper
  | false, false => none

/-- The exact value of `x`. -/
def exact (x : Binary64) : Decimal :=
  ⟨x.mantissa * Nat.pow 2 x.scale.toNat * Nat.pow 5 (-x.scale).toNat, min x.scale 0⟩

/-- Moves up to `bound` trailing zeros of the digits into the exponent. -/
def stripZeros : (bound : Nat) → Decimal → Decimal
  | 0, d => d
  | bound + 1, d =>
    if d.digits != 0 && d.digits % 10 == 0 then
      stripZeros bound ⟨d.digits / 10, d.exponent + 1⟩
    else d

/-- The shortest decimal that reads back as the absolute value of `x`, which is finite and not
zero. Seventeen digits are enough for every double. -/
def shortest (tie : Tie) (x : Binary64) : Decimal :=
  let scale := scaleOf x
  let found := (List.range 17).findSome? fun (n : Nat) => onGrid tie x (scale - 1 - n)
  stripZeros 17 (found.getD (exact x))

end Decimal

end PathQuery
