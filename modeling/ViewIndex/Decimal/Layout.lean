import ViewIndex.Decimal.Shortest

/-!
# Writing decimals

A `Layout` holds the decisions of a number format: which exponents are written positionally and how
the others look. `Layout.write` lays a shortest decimal out by them. `fixed` writes a quotient with
a given number of places instead.
-/

namespace ViewIndex

namespace Decimal

/-- What a format decides about the text of a floating-point number. -/
structure Layout where
  /-- The smallest exponent of the leading digit that is written positionally. -/
  leastPositional : Int
  /-- The largest exponent of the leading digit that is written positionally. -/
  greatestPositional : Int
  /-- What stands between the digits and a nonnegative exponent. -/
  upwardMark : String
  /-- What stands between the digits and the magnitude of a negative exponent. -/
  downwardMark : String

private def zeros (n : Nat) : String := String.ofList (List.replicate n '0')

/-- Digits with a point after the first `places` of them, filled up with zeros on either side; at
least one digit stands on each side of the point. -/
private def positional (digits : String) (places : Int) : String :=
  if places ≤ 0 then "0." ++ zeros (-places).toNat ++ digits
  else
    let whole := places.toNat
    if digits.length ≤ whole then digits ++ zeros (whole - digits.length) ++ ".0"
    else (digits.take whole).toString ++ "." ++ (digits.drop whole).toString

/-- The text of a positive decimal. -/
def Layout.write (layout : Layout) (d : Decimal) : String :=
  let digits := toString d.coefficient
  let leading : Int := d.exponent + digits.length - 1
  if layout.leastPositional ≤ leading ∧ leading ≤ layout.greatestPositional then
    positional digits (leading + 1)
  else
    let fractional := (digits.drop 1).toString
    let significand :=
      (digits.take 1).toString ++ (if fractional.isEmpty then "" else "." ++ fractional)
    let mark := if leading < 0 then layout.downwardMark else layout.upwardMark
    significand ++ mark ++ toString leading.natAbs

/-- A quotient with two places after the point, rounded to nearest, a tie going to the even last
digit. -/
def hundredths (numerator denominator : Nat) : String :=
  let scaled := 100 * numerator
  let quotient := scaled / denominator
  let rest := 2 * (scaled % denominator)
  let rounded :=
    if denominator < rest ∨ (rest = denominator ∧ quotient % 2 = 1) then quotient + 1 else quotient
  let places := rounded % 100
  toString (rounded / 100) ++ "." ++ (if places < 10 then "0" else "") ++ toString places

end Decimal

/-- The text of a finite number in a given layout; zero keeps its sign. -/
def Binary64.write (layout : Decimal.Layout) (x : Binary64) : String :=
  (if x.isNegative then "-" else "") ++ if x.isZero then "0.0" else layout.write x.shortest

end ViewIndex
