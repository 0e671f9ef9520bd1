/-!
# Floating-point numbers by their bits

A `Binary64` is the bit pattern of a double-precision number. Keys and documents keep numbers in
this form, because the pattern alone decides how a number is ordered, stored and printed. The
arithmetic of reducers is left to `Float`; the conversions between integers and patterns, and the
products and quotients that a decimal literal leads to, are exact `Nat` computations.
-/

namespace ViewIndex

/-- The 64 bits of a double-precision number, the sign of zero and the payload of a NaN included. -/
structure Binary64 where
  bits : UInt64
deriving DecidableEq, Repr

namespace Binary64

/-- The bit that makes a number negative. -/
def signBit : UInt64 := 0x8000000000000000

def zero : Binary64 := ⟨0⟩

def isNegative (x : Binary64) : Bool := decide (signBit ≤ x.bits)

/-- The bit above the last fifty-two. -/
def leadingBit : Nat := 0x10000000000000

/-- The eleven bits after the sign. -/
def exponentField (x : Binary64) : Nat := x.bits.toNat / leadingBit % 2048

/-- The last fifty-two bits. -/
def fraction (x : Binary64) : Nat := x.bits.toNat % leadingBit

/-- Neither infinite nor NaN. -/
def isFinite (x : Binary64) : Bool := x.exponentField != 2047

/-- Zero of either sign. -/
def isZero (x : Binary64) : Bool := x.bits == 0 || x.bits == signBit

/-- Negative zero becomes positive zero; every other pattern stays. -/
def unsignedZero (x : Binary64) : Binary64 := if x.isZero then zero else x

/-- The magnitude of a finite number is `significand * 2 ^ (scale - 1075)`. -/
def significand (x : Binary64) : Nat :=
  if x.exponentField = 0 then x.fraction else x.fraction + leadingBit

/-- The exponent of the magnitude, shifted up by 1075 so that it is a natural number. -/
def scale (x : Binary64) : Nat := max x.exponentField 1

/-- The total order on patterns: negative numbers come first, those of larger magnitude before
those of smaller, and positive numbers follow by magnitude. NaNs lie outside the infinities. -/
def totalCompare (x y : Binary64) : Ordering :=
  match x.isNegative, y.isNegative with
  | true, false => .lt
  | false, true => .gt
  | false, false => compare x.bits y.bits
  | true, true => compare y.bits x.bits

/-- The magnitude of a finite number, if that is a whole number. -/
def wholeMagnitude? (x : Binary64) : Option Nat :=
  if 1075 ≤ x.scale then some (x.significand <<< (x.scale - 1075))
  else
    let unit := 1 <<< (1075 - x.scale)
    if x.significand % unit = 0 then some (x.significand / unit) else none

/-- The integer that a finite whole number denotes. Both zeros denote 0. -/
def toInt? (x : Binary64) : Option Int :=
  if x.isFinite then
    x.wholeMagnitude?.map fun n => if x.isNegative then -(n : Int) else n
  else none

/-- A natural number divided by `2 ^ shift`, rounded to nearest, a tie going to the even
neighbour. -/
def roundShift (n shift : Nat) : Nat :=
  let unit := 1 <<< shift
  let quotient := n / unit
  let rest := 2 * (n % unit)
  if unit < rest ∨ (rest = unit ∧ quotient % 2 = 1) then quotient + 1 else quotient

/-- The bits of the number nearest to a natural number. A significand that rounds up to the next
power of two carries into the exponent by itself. -/
def natBits (n : Nat) : Nat :=
  if n = 0 then 0
  else
    let top := n.log2
    if top ≤ 52 then (top + 1022) * leadingBit + n <<< (52 - top)
    else (top + 1022) * leadingBit + roundShift n (top - 52)

/-- The number nearest to an integer below `2 ^ 1023` in magnitude, ties going to the even
significand. -/
def ofInt (i : Int) : Binary64 :=
  let magnitude := UInt64.ofNat (natBits i.natAbs)
  if i < 0 then ⟨magnitude ||| signBit⟩ else ⟨magnitude⟩

/-! ## Products and quotients -/

/-- The bits of infinity. -/
def infinityBits : Nat := 2047 * leadingBit

/-- A quotient, rounded to nearest, a tie going to the even neighbour. -/
def roundRatio (numerator denominator : Nat) : Nat :=
  let quotient := numerator / denominator
  let rest := 2 * (numerator % denominator)
  if denominator < rest ∨ (rest = denominator ∧ quotient % 2 = 1) then quotient + 1 else quotient

/-- The last place of the number nearest to a positive quotient stands for `2 ^ (place - 1074)`. -/
def lastPlace (numerator denominator : Nat) : Nat :=
  let estimate : Int := numerator.log2 - denominator.log2
  let reached := denominator <<< estimate.toNat ≤ numerator <<< (-estimate).toNat
  ((if reached then estimate else estimate - 1) + 1022).toNat

/-- The bits of the number nearest to a quotient. As with natural numbers, rounding carries into the
exponent by itself. -/
def ratioBits (numerator denominator : Nat) : Nat :=
  if numerator = 0 then 0
  else
    let place := lastPlace numerator denominator
    let significand := roundRatio (numerator <<< 1074) (denominator <<< place)
    min (place * leadingBit + significand) infinityBits

/-- The number nearest to a quotient of natural numbers; infinity if that is too large. -/
def ofRatio (numerator denominator : Nat) : Binary64 :=
  ⟨UInt64.ofNat (ratioBits numerator denominator)⟩

/-- The magnitude of a finite number in units of `2 ^ (-1075)`. -/
def units (x : Binary64) : Nat := x.significand <<< x.scale

/-- The product of the magnitudes of two finite numbers. -/
def times (x y : Binary64) : Binary64 := ofRatio (x.units * y.units) (1 <<< 2150)

/-- The quotient of the magnitudes of two finite numbers, the second of which is not zero. -/
def dividedBy (x y : Binary64) : Binary64 := ofRatio x.units y.units

def negative (x : Binary64) : Binary64 := ⟨x.bits ||| signBit⟩

/-- Magnitudes from here on round to infinity: half a unit beyond the largest finite number. -/
def overflowBound : Nat := 1 <<< 1024 - 1 <<< 970

/-- The number to compute with. All NaNs become one. -/
def toFloat (x : Binary64) : Float := Float.ofBits x.bits

def ofFloat (x : Float) : Binary64 := ⟨x.toBits⟩

end Binary64

end ViewIndex
