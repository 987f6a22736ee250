import PathQuery.Decimal.Shortest

/-!
# How a decimal is laid out

A format for finite numbers says which orders of magnitude are written positionally, how an
exponent is signed and which way a tie goes. `Layout.render` writes a double in such a format,
always with a fraction when it is positional.
-/

namespace PathQuery

/-- A format for finite numbers. Between the two bounds on the exponent of the leading digit a
number is written positionally, outside them with an exponent. -/
structure Layout where
  plainFrom : Int
  plainTo : Int
  /-- A positive exponent is written with its sign. -/
  plus : Bool
  tie : Decimal.Tie

namespace Layout

def zeros (n : Nat) : String := String.ofList (List.replicate n '0')

/-- A positional number whose leading digit has the given exponent. -/
def positional (digits : List Char) (exponent : Int) : String :=
  if exponent < 0 then "0." ++ zeros (-exponent - 1).toNat ++ String.ofList digits
  else
    let whole := exponent.toNat + 1
    if digits.length ≤ whole then String.ofList digits ++ zeros (whole - digits.length) ++ ".0"
    else String.ofList (digits.take whole) ++ "." ++ String.ofList (digits.drop whole)

/-- A number with one digit before its point and an exponent. -/
def scientific (plus : Bool) (digits : List Char) (exponent : Int) : String :=
  let fraction := if digits.length ≤ 1 then "" else "." ++ String.ofList (digits.drop 1)
  let sign := if exponent < 0 then "-" else if plus then "+" else ""
  String.ofList (digits.take 1) ++ fraction ++ "e" ++ sign ++ toString exponent.natAbs

/-- The text of a finite number. -/
def render (layout : Layout) (x : Binary64) : String :=
  let sign := if x.negative then "-" else ""
  if x.isZero then sign ++ "0.0"
  else
    let decimal := Decimal.shortest layout.tie x
    let digits := Nat.toDigits 10 decimal.digits
    let exponent := decimal.exponent + digits.length - 1
    if layout.plainFrom ≤ exponent && exponent ≤ layout.plainTo then
      sign ++ positional digits exponent
    else sign ++ scientific layout.plus digits exponent

end Layout

end PathQuery
