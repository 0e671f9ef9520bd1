import ViewIndex.Json.Basic
import ViewIndex.Text.Hex

/-!
# Reading JSON

`Json.parse?` accepts a text that is one JSON value between white space. Arrays and objects may be
nested 127 deep. A number with neither point nor exponent that fits 64 bits is an integer; any other
is a floating-point number made from its leading digits, see `Literal.value?`.
-/

namespace ViewIndex

namespace Json

/-- The white space that may surround values. -/
def skipSpace : List Char → List Char
  | c :: rest =>
      if c = ' ' ∨ c = '\n' ∨ c = '\t' ∨ c = '\r' then skipSpace rest else c :: rest
  | [] => []

/-- The deepest nesting of arrays and objects that is read. -/
def maxDepth : Nat := 127

/-- Digits whose value still fits 64 bits are gathered in `significand`; the number that the literal
denotes is `significand * 10 ^ exponent`, up to the digits left out. -/
structure Literal where
  negative : Bool
  significand : Nat
  exponent : Int

/-- Whether another digit may be appended without leaving 64 bits. -/
def roomFor (significand digit : Nat) : Bool := significand * 10 + digit < UInt64.size

/-- The digits at the start, and what follows them. -/
def takeDigits (input : List Char) : List Nat × List Char :=
  ((input.takeWhile Char.isDigit).map fun c => c.toNat - '0'.toNat, input.dropWhile Char.isDigit)

/-- Appends digits to a significand as long as there is room, and says which digits were left. -/
def appendDigits (significand : Nat) : List Nat → Nat × List Nat
  | [] => (significand, [])
  | d :: rest =>
      if roomFor significand d then appendDigits (significand * 10 + d) rest
      else (significand, d :: rest)

/-- The powers of ten up to this exponent have a nearest floating-point number. -/
def largestPower : Nat := 308

/-- The number nearest to a power of ten. -/
def powerOfTen (exponent : Nat) : Binary64 := .ofRatio (Nat.pow 10 exponent) 1

/-- Multiplies by a power of ten, or divides by one in steps of at most `10 ^ 308`. -/
def scaleByTen (x : Binary64) (exponent : Int) : Binary64 :=
  if 0 ≤ exponent then x.times (powerOfTen exponent.toNat)
  else
    let down := exponent.natAbs
    if down ≤ largestPower then x.dividedBy (powerOfTen down)
    else if down ≤ 2 * largestPower then
      (x.dividedBy (powerOfTen largestPower)).dividedBy (powerOfTen (down - largestPower))
    else .zero

/-- The floating-point number of a literal: its significand, rounded, times or divided by a power of
ten. There is none if the result is infinite. -/
def Literal.value? (l : Literal) : Option Binary64 :=
  if largestPower < l.exponent ∧ l.significand ≠ 0 then none
  else
    let scaled := if l.significand = 0 then .zero
      else scaleByTen (.ofInt l.significand) l.exponent
    if scaled.isFinite then some (if l.negative then scaled.negative else scaled) else none

/-- An optional exponent. One beyond this bound makes the number zero or infinite whatever its
digits are. -/
def exponentBound : Nat := 0x80000000

/-- Reads an exponent if there is one. -/
def readExponent : List Char → Option (Option Int × List Char)
  | e :: rest =>
      if e = 'e' ∨ e = 'E' then
        let (negative, rest) := match rest with
          | '-' :: rest => (true, rest)
          | '+' :: rest => (false, rest)
          | rest => (false, rest)
        match takeDigits rest with
        | ([], _) => none
        | (digits, rest) =>
            let magnitude := digits.foldl (fun n d => min (10 * n + d) exponentBound) 0
            some (some (if negative then -(magnitude : Int) else magnitude), rest)
      else some (none, e :: rest)
  | [] => some (none, [])

/-- The digits before the point: one zero, or a run that starts with another digit. -/
def readWhole (input : List Char) : Option (List Nat × List Char) :=
  match takeDigits input with
  | ([], _) => none
  | ([0], rest) => some ([0], rest)
  | (0 :: _, _) => none
  | (digits, rest) => some (digits, rest)

/-- The digits after the point, if there is one; at least one has to follow. -/
def readFraction : List Char → Option (List Nat × List Char)
  | '.' :: rest =>
      match takeDigits rest with
      | ([], _) => none
      | (digits, rest) => some (digits, rest)
  | rest => some ([], rest)

def readNumber (input : List Char) : Option (Number × List Char) := do
  let (negative, unsigned) := match input with
    | '-' :: rest => (true, rest)
    | _ => (false, input)
  let (whole, afterWhole) ← readWhole unsigned
  let (fraction, afterFraction) ← readFraction afterWhole
  let (exponent, rest) ← readExponent afterFraction
  let (significand, dropped) := appendDigits 0 whole
  let plain := fraction.isEmpty && exponent.isNone && dropped.isEmpty
  if plain && !negative then return (.int significand, rest)
  else if plain && 0 < significand && significand ≤ 0x8000000000000000 then
    return (.int (-significand), rest)
  else
    let (significand, unused) := appendDigits significand fraction
    let shift : Int := dropped.length - (fraction.length - unused.length : Nat)
    let x ← Literal.value? ⟨negative, significand, shift + exponent.getD 0⟩
    return (.real x, rest)

/-- The number that four hexadecimal digits denote. -/
def unit16? (a b c d : Char) : Option Nat := Text.hexNumber? [a, b, c, d] 0

/-- The character of an escape with one letter. -/
def escaped? : Char → Option Char
  | '"' => some '"'
  | '\\' => some '\\'
  | '/' => some '/'
  | 'b' => some '\x08'
  | 'f' => some '\x0c'
  | 'n' => some '\n'
  | 'r' => some '\r'
  | 't' => some '\t'
  | _ => none

/-- Reads the characters of a text up to the closing quote. Characters beyond the first plane may
be escaped as a pair of surrogates; a surrogate that stands alone is refused, and so is an unescaped
control character. -/
def readText : List Char → Option (List Char × List Char)
  | '"' :: rest => some ([], rest)
  | '\\' :: 'u' :: a :: b :: c :: d :: rest => do
      let unit ← unit16? a b c d
      if 0xD800 ≤ unit ∧ unit < 0xDC00 then
        match rest with
        | '\\' :: 'u' :: a :: b :: c :: d :: rest =>
            let low ← unit16? a b c d
            if 0xDC00 ≤ low ∧ low < 0xE000 then
              let (chars, rest) ← readText rest
              let code := 0x10000 + (unit - 0xD800) * 0x400 + (low - 0xDC00)
              return (Char.ofNat code :: chars, rest)
            else none
        | _ => none
      else if 0xDC00 ≤ unit ∧ unit < 0xE000 then none
      else
        let (chars, rest) ← readText rest
        return (Char.ofNat unit :: chars, rest)
  | '\\' :: c :: rest => do
      let c ← escaped? c
      let (chars, rest) ← readText rest
      return (c :: chars, rest)
  | c :: rest =>
      if c.toNat < 0x20 ∨ c = '\\' then none
      else do
        let (chars, rest) ← readText rest
        return (c :: chars, rest)
  | [] => none

/-- Reads a word letter by letter. -/
def readWord (word : List Char) (value : Json) (input : List Char) : Option (Json × List Char) :=
  if word.isPrefixOf input then some (value, input.drop word.length) else none

mutual

/-- Reads one value; `depth` more levels may be opened. Each step either consumes a character or
passes from a value to the list that holds it, so twice the length of the text is enough fuel. -/
def readValue : (fuel depth : Nat) → List Char → Option (Json × List Char)
  | 0, _, _ => none
  | fuel + 1, depth, input =>
      match skipSpace input with
      | '"' :: rest => (readText rest).map fun (chars, rest) => (.text (String.ofList chars), rest)
      | '[' :: rest =>
          if depth = 0 then none
          else
            match skipSpace rest with
            | ']' :: rest => some (.array [], rest)
            | rest => (readItems fuel (depth - 1) rest).map fun (items, rest) =>
                (.array items, rest)
      | '\x7b' :: rest =>
          if depth = 0 then none
          else
            match skipSpace rest with
            | '\x7d' :: rest => some (.object [], rest)
            | rest => (readMembers fuel (depth - 1) rest).map fun (members, rest) =>
                (ofMembers members, rest)
      | 'n' :: rest => readWord "ull".toList .null rest
      | 't' :: rest => readWord "rue".toList (.bool true) rest
      | 'f' :: rest => readWord "alse".toList (.bool false) rest
      | other => (readNumber other).map fun (n, rest) => (.number n, rest)

/-- Reads the items of an array, at least one, up to the closing bracket. -/
def readItems : (fuel depth : Nat) → List Char → Option (List Json × List Char)
  | 0, _, _ => none
  | fuel + 1, depth, input => do
      let (item, rest) ← readValue fuel depth input
      match skipSpace rest with
      | ',' :: rest =>
          let (items, rest) ← readItems fuel depth rest
          return (item :: items, rest)
      | ']' :: rest => return ([item], rest)
      | _ => none

/-- Reads the members of an object, at least one, up to the closing brace. -/
def readMembers : (fuel depth : Nat) → List Char → Option (List (String × Json) × List Char)
  | 0, _, _ => none
  | fuel + 1, depth, input => do
      let '"' :: rest := skipSpace input | none
      let (name, rest) ← readText rest
      let ':' :: rest := skipSpace rest | none
      let (value, rest) ← readValue fuel depth rest
      match skipSpace rest with
      | ',' :: rest =>
          let (members, rest) ← readMembers fuel depth rest
          return ((String.ofList name, value) :: members, rest)
      | '\x7d' :: rest => return ([(String.ofList name, value)], rest)
      | _ => none

end

/-- The value that a list of characters denotes, if it is valid JSON. -/
def parseChars? (input : List Char) : Option Json := do
  let (value, rest) ← readValue (2 * input.length + 2) maxDepth input
  if (skipSpace rest).isEmpty then some value else none

/-- The value that a text denotes, if it is valid JSON. -/
def parse? (input : String) : Option Json := parseChars? input.toList

end Json

end ViewIndex
