import ViewIndex.Binary64
import ViewIndex.Text.Hex

/-!
# Values in settings files

Settings files are written in TOML, of which this library reads files whose values are texts,
integers, floating-point numbers and truth values, each on the line of its key. A value is read off
the characters behind the equals sign.
-/

namespace ViewIndex.Toml

inductive Scalar where
  | text (s : String)
  | integer (i : Int)
  /-- A floating-point number. No setting is one, so the number is not kept. -/
  | real
  | boolean (b : Bool)
deriving DecidableEq, Repr

/-- The characters that separate the parts of a line. -/
def isSpace (c : Char) : Bool := c == ' ' || c == '\t'

def skipSpace (input : List Char) : List Char := input.dropWhile isSpace

/-- The characters that may stand in texts and comments as they are: no control characters but the
tabulator. -/
def isPlain (c : Char) : Bool := c == '\t' || (0x20 ≤ c.toNat && c.toNat != 0x7F)

/-! ## Texts -/

/-- The character of an escape with one letter. -/
def escaped? : Char → Option Char
  | '"' => some '"'
  | '\\' => some '\\'
  | 'b' => some '\x08'
  | 'f' => some '\x0c'
  | 'n' => some '\n'
  | 'r' => some '\r'
  | 't' => some '\t'
  | _ => none

/-- The character with a code point. -/
def charOfCode? (code : Nat) : Option Char :=
  if code.isValidChar then some (Char.ofNat code) else none

/-- Reads a text in double quotes behind its first quote. -/
def readQuoted : List Char → Option (List Char × List Char)
  | '"' :: rest => some ([], rest)
  | '\\' :: 'u' :: a :: b :: c :: d :: rest => do
      let code ← Text.hexNumber? [a, b, c, d] 0
      let first ← charOfCode? code
      let (chars, rest) ← readQuoted rest
      return (first :: chars, rest)
  | '\\' :: 'U' :: a :: b :: c :: d :: e :: f :: g :: h :: rest => do
      let code ← Text.hexNumber? [a, b, c, d, e, f, g, h] 0
      let first ← charOfCode? code
      let (chars, rest) ← readQuoted rest
      return (first :: chars, rest)
  | '\\' :: c :: rest => do
      let first ← escaped? c
      let (chars, rest) ← readQuoted rest
      return (first :: chars, rest)
  | c :: rest =>
      if isPlain c && c != '\\' then do
        let (chars, rest) ← readQuoted rest
        return (c :: chars, rest)
      else none
  | [] => none

/-- Reads a text in single quotes behind its first quote. Nothing is escaped in it. -/
def readLiteral : List Char → Option (List Char × List Char)
  | '\x27' :: rest => some ([], rest)
  | c :: rest =>
      if isPlain c then do
        let (chars, rest) ← readLiteral rest
        return (c :: chars, rest)
      else none
  | [] => none

/-! ## Numbers -/

/-- Digits without the underscores that may separate them, each standing between two digits. -/
def digits? (isDigit : Char → Bool) : List Char → Option (List Char)
  | [] => none
  | [d] => if isDigit d then some [d] else none
  | d :: '_' :: rest => if isDigit d then (digits? isDigit rest).map (d :: ·) else none
  | d :: rest => if isDigit d then (digits? isDigit rest).map (d :: ·) else none

/-- The number that digits denote in a base. -/
def ofDigits (base : Nat) (digits : List Char) : Nat :=
  digits.foldl (fun n d => base * n + (Text.hexValue? d).getD 0) 0

/-- The digits of a whole number in base ten. Only zero starts with a zero. -/
def wholeDigits? (token : List Char) : Option (List Char) :=
  (digits? Char.isDigit token).filter fun digits => digits.length = 1 || digits.head? != some '0'

/-- Whether a number without a sign is written in base sixteen, eight or two, and its digits. -/
def basedDigits? : List Char → Option (Nat × List Char)
  | '0' :: 'x' :: rest => (digits? (fun c => (Text.hexValue? c).isSome) rest).map (16, ·)
  | '0' :: 'o' :: rest => (digits? (fun c => '0' ≤ c && c ≤ '7') rest).map (8, ·)
  | '0' :: 'b' :: rest => (digits? (fun c => c == '0' || c == '1') rest).map (2, ·)
  | _ => none

/-- A sign, if there is one, and what follows it. -/
def splitSign : List Char → Bool × List Char
  | '-' :: rest => (true, rest)
  | '+' :: rest => (false, rest)
  | token => (false, token)

/-- An integer in any of the bases. Only numbers in base ten may have a sign. -/
def ofIntegerToken? (token : List Char) : Option Int :=
  match basedDigits? token with
  | some (base, digits) => some (ofDigits base digits)
  | none =>
      let (negative, unsigned) := splitSign token
      (wholeDigits? unsigned).map fun digits =>
        let magnitude : Int := ofDigits 10 digits
        if negative then -magnitude else magnitude

/-- An integer that fits 64 bits. -/
def integer? (token : List Char) : Option Int :=
  (ofIntegerToken? token).filter fun i => -0x8000000000000000 ≤ i && i < 0x8000000000000000

/-- A floating-point number as it is written: `digits`, read as a whole number, times a power of
ten. -/
structure Literal where
  negative : Bool
  digits : List Char
  exponent : Int
deriving DecidableEq, Repr

/-- Whether the magnitude of a literal rounds to infinity. A number whose first digit stands below
the place of `10 ^ 308` does not, and one whose first digit stands above does. -/
def Literal.overflows (literal : Literal) : Bool :=
  let digits := literal.digits.dropWhile (· == '0')
  let magnitude : Int := digits.length + literal.exponent
  if digits.isEmpty || magnitude < 309 then false
  else if 309 < magnitude then true
  else Binary64.overflowBound * Nat.pow 10 (-literal.exponent).toNat
    ≤ ofDigits 10 digits * Nat.pow 10 literal.exponent.toNat

/-- The value of an exponent: its letter, an optional sign and digits. -/
def exponent? : List Char → Option Int
  | e :: rest =>
      let (negative, unsigned) := splitSign rest
      if e == 'e' || e == 'E' then
        (digits? Char.isDigit unsigned).map fun digits =>
          let magnitude : Int := ofDigits 10 digits
          if negative then -magnitude else magnitude
      else none
  | [] => none

/-- A whole number with digits behind a point, an exponent, or both. -/
def literal? (token : List Char) : Option Literal := do
  let (negative, unsigned) := splitSign token
  let isMark (c : Char) : Bool := c == 'e' || c == 'E'
  let whole := unsigned.takeWhile fun c => c != '.' && !isMark c
  let digits ← wholeDigits? whole
  match unsigned.drop whole.length with
  | '.' :: rest =>
      let fraction ← digits? Char.isDigit (rest.takeWhile (!isMark ·))
      let mark := rest.dropWhile (!isMark ·)
      let exponent ← if mark.isEmpty then some 0 else exponent? mark
      return ⟨negative, digits ++ fraction, exponent - fraction.length⟩
  | mark => return ⟨negative, digits, ← exponent? mark⟩

/-- Whether this is a floating-point number: a literal or one of the names of what is not finite. A
literal may stand for minus infinity by its size, but not for infinity. -/
def isReal (token : List Char) : Bool :=
  let unsigned := (splitSign token).2
  unsigned = "inf".toList || unsigned = "nan".toList ||
    (literal? token).any fun literal => literal.negative || !literal.overflows

/-- The value of a token that is no text. -/
def ofToken? (token : List Char) : Option Scalar :=
  if token = "true".toList then some (.boolean true)
  else if token = "false".toList then some (.boolean false)
  else if isReal token then some .real
  else (integer? token).map .integer

/-- Reads a value. What is not a text goes on to a space or a comment. -/
def readScalar : List Char → Option (Scalar × List Char)
  | '"' :: rest => (readQuoted rest).map (Prod.map (.text ∘ String.ofList) id)
  | '\x27' :: rest => (readLiteral rest).map (Prod.map (.text ∘ String.ofList) id)
  | input =>
      let isInside (c : Char) : Bool := !isSpace c && c != '#'
      (ofToken? (input.takeWhile isInside)).map fun value => (value, input.dropWhile isInside)

end ViewIndex.Toml
