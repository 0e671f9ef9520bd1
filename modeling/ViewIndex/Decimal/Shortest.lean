import ViewIndex.Binary64

/-!
# The shortest decimal of a floating-point number

Of all decimals that round to a given number, `Binary64.shortest` takes one with the fewest
digits, and of those the nearest to the number. Everything is exact arithmetic on natural numbers:
the interval of reals that round to the number is compared with the two neighbours of the number on
each decimal grid, coarse grids first.
-/

namespace ViewIndex

/-- The number `coefficient * 10 ^ exponent`. -/
structure Decimal where
  coefficient : Nat
  exponent : Int
deriving DecidableEq, Repr

namespace Binary64

/-- The reals that round to a positive number, in units of a quarter of its last place: `centre` is
the number itself, and the two ends belong to the interval when `closed`. One unit is
`2 ^ (scale - 1077)`. -/
structure Interval where
  low : Nat
  centre : Nat
  high : Nat
  closed : Bool
  scale : Nat

/-- Below a power of two the neighbours lie twice as close as above it. -/
def interval (x : Binary64) : Interval :=
  let centre := 4 * x.significand
  { low := if x.fraction = 0 ∧ 1 < x.exponentField then centre - 1 else centre - 2
    centre
    high := centre + 2
    closed := x.significand % 2 = 0
    scale := x.scale }

/-- The numerator and the denominator that turn units of an interval into multiples of
`10 ^ exponent`. -/
def gridRatio (scale : Nat) (exponent : Int) : Nat × Nat :=
  (Nat.pow 10 (-exponent).toNat <<< (scale - 1077), Nat.pow 10 exponent.toNat <<< (1077 - scale))

/-- Whether `coefficient * 10 ^ exponent` rounds to the number. -/
def Interval.holds (i : Interval) (d : Decimal) : Bool :=
  let (num, den) := gridRatio i.scale d.exponent
  let point := d.coefficient * den
  if i.closed then i.low * num ≤ point && point ≤ i.high * num
  else i.low * num < point && point < i.high * num

/-- The neighbour of the number on the grid of `10 ^ exponent` that rounds to it, the nearer one
if both do; an exact tie goes to the even coefficient. -/
def Interval.onGrid? (i : Interval) (exponent : Int) : Option Decimal :=
  let (num, den) := gridRatio i.scale exponent
  let below : Decimal := ⟨i.centre * num / den, exponent⟩
  let above : Decimal := ⟨below.coefficient + 1, exponent⟩
  match i.holds below, i.holds above with
  | false, false => none
  | true, false => some below
  | false, true => some above
  | true, true =>
      let rest := 2 * (i.centre * num % den)
      if den < rest ∨ (rest = den ∧ below.coefficient % 2 = 1) then some above else some below

/-- The exponent of the leading decimal digit of a positive number. The estimate from the binary
exponent is off by at most one. -/
def leadingExponent (x : Binary64) : Int :=
  let binary : Int := (x.significand.log2 + x.scale : Nat) - 1075
  let estimate : Int := Int.fdiv (binary * 30103) 100000
  let reaches (exponent : Int) : Bool :=
    let (num, den) := gridRatio x.scale exponent
    den ≤ 4 * x.significand * num
  if reaches (estimate + 1) then estimate + 1
  else if reaches estimate then estimate
  else estimate - 1

/-- Strips the zeros at the end of a coefficient, at most `fuel` of them. -/
def stripZeros : Nat → Decimal → Decimal
  | 0, d => d
  | fuel + 1, d =>
      if d.coefficient % 10 = 0 then stripZeros fuel ⟨d.coefficient / 10, d.exponent + 1⟩ else d

/-- The shortest decimal that rounds to the magnitude of a finite number other than zero.
Seventeen digits always suffice. -/
def shortest (x : Binary64) : Decimal :=
  let interval := x.interval
  let leading := x.leadingExponent
  let grids := (List.range 17).map fun (digits : Nat) => leading - digits
  stripZeros 20 ((grids.findSome? interval.onGrid?).getD ⟨x.significand, x.scale - 1075⟩)

end Binary64

end ViewIndex
