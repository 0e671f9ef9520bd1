import ViewIndex.Decimal.Layout
import ViewIndex.Json.Basic
import ViewIndex.Text.Hex

/-!
# Writing JSON

`Json.compact` writes a value without blanks, `Json.pretty` with one item or member a line. Both
write the members of an object in the order in which the value holds them.
-/

namespace ViewIndex

namespace Json

/-- Floating-point numbers are positional while the exponent of the leading digit is between -5 and
15; other exponents are written with their sign. -/
def realLayout : Decimal.Layout where
  leastPositional := -5
  greatestPositional := 15
  upwardMark := "e+"
  downwardMark := "e-"

def Number.write : Number → String
  | .int i => toString i
  | .real x => x.write realLayout

/-- A character inside quotes: quotes, backslashes and control characters are escaped. -/
def escape (c : Char) : String :=
  if c = '"' then "\\\""
  else if c = '\\' then "\\\\"
  else if c = '\x08' then "\\b"
  else if c = '\x0c' then "\\f"
  else if c = '\n' then "\\n"
  else if c = '\r' then "\\r"
  else if c = '\t' then "\\t"
  else if c.toNat < 0x20 then "\\u" ++ Text.hexFixed 4 c.toNat
  else c.toString

def quote (s : String) : String := "\"" ++ String.join (s.toList.map escape) ++ "\""

mutual

/-- A value without blanks. -/
def compact : Json → String
  | .null => "null"
  | .bool true => "true"
  | .bool false => "false"
  | .number n => n.write
  | .text s => quote s
  | .array items => "[" ++ ",".intercalate (compactItems items) ++ "]"
  | .object members => "\x7b" ++ ",".intercalate (compactMembers members) ++ "\x7d"

def compactItems : List Json → List String
  | [] => []
  | item :: rest => compact item :: compactItems rest

def compactMembers : List (String × Json) → List String
  | [] => []
  | (name, value) :: rest => (quote name ++ ":" ++ compact value) :: compactMembers rest

end

/-- A line break and the blanks before a value that is nested `depth` deep. -/
def lineBreak (depth : Nat) : String := "\n" ++ String.ofList (List.replicate (2 * depth) ' ')

mutual

/-- A value whose items and members stand on lines of their own, two blanks further in. -/
def prettyAt (depth : Nat) : Json → String
  | .array (item :: rest) =>
      "[" ++ lineBreak (depth + 1) ++ prettyAt (depth + 1) item ++ prettyItems (depth + 1) rest ++
        lineBreak depth ++ "]"
  | .object (member :: rest) =>
      "\x7b" ++ lineBreak (depth + 1) ++ quote member.1 ++ ": " ++ prettyAt (depth + 1) member.2 ++
        prettyMembers (depth + 1) rest ++ lineBreak depth ++ "\x7d"
  | value => compact value

/-- The items after the first. -/
def prettyItems (depth : Nat) : List Json → String
  | [] => ""
  | item :: rest => "," ++ lineBreak depth ++ prettyAt depth item ++ prettyItems depth rest

/-- The members after the first. -/
def prettyMembers (depth : Nat) : List (String × Json) → String
  | [] => ""
  | (name, value) :: rest =>
      "," ++ lineBreak depth ++ quote name ++ ": " ++ prettyAt depth value ++
        prettyMembers depth rest

end

/-- A value on several lines. -/
def pretty (value : Json) : String := prettyAt 0 value

end Json

end ViewIndex
