/-!
# Hexadecimal digits

Writing and reading numbers and byte strings in base sixteen.
-/

namespace ViewIndex.Text

/-- The digit of a number below sixteen, lower case. -/
def hexDigit (n : Nat) : Char :=
  if n < 10 then Char.ofNat ('0'.toNat + n) else Char.ofNat ('a'.toNat + (n - 10))

/-- The value of a hexadecimal digit of either case. -/
def hexValue? (c : Char) : Option Nat :=
  if '0' ≤ c ∧ c ≤ '9' then some (c.toNat - '0'.toNat)
  else if 'a' ≤ c ∧ c ≤ 'f' then some (c.toNat - 'a'.toNat + 10)
  else if 'A' ≤ c ∧ c ≤ 'F' then some (c.toNat - 'A'.toNat + 10)
  else none

/-- The last `width` hexadecimal digits of a number. -/
def hexDigits : (width n : Nat) → List Char
  | 0, _ => []
  | width + 1, n => hexDigits width (n / 16) ++ [hexDigit (n % 16)]

/-- A number with exactly `width` hexadecimal digits. -/
def hexFixed (width n : Nat) : String := String.ofList (hexDigits width n)

/-- The number that a run of hexadecimal digits denotes, continuing from `n`. -/
def hexNumber? : List Char → (n : Nat) → Option Nat
  | [], n => some n
  | c :: rest, n => (hexValue? c).bind fun d => hexNumber? rest (16 * n + d)

/-- Two digits a byte. -/
def hexOfBytes (bytes : List UInt8) : String :=
  String.ofList (bytes.flatMap fun b => hexDigits 2 b.toNat)

/-- The bytes that an even number of digits denotes. -/
def bytesOfHex? : List Char → Option (List UInt8)
  | [] => some []
  | [_] => none
  | a :: b :: rest => do
      let high ← hexValue? a
      let low ← hexValue? b
      let bytes ← bytesOfHex? rest
      return UInt8.ofNat (16 * high + low) :: bytes

end ViewIndex.Text
