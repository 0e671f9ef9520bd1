/-!
# Blank space and lines

Which characters are white space by the Unicode property of that name, and how a text splits into
lines.
-/

namespace ViewIndex.Text

/-- The characters with the Unicode property White_Space. -/
def isBlank (c : Char) : Bool :=
  let n := c.toNat
  (9 ≤ n && n ≤ 13) || n == 0x20 || n == 0x85 || n == 0xA0 || n == 0x1680 ||
    (0x2000 ≤ n && n ≤ 0x200A) || n == 0x2028 || n == 0x2029 || n == 0x202F || n == 0x205F ||
    n == 0x3000

def trimStart (text : List Char) : List Char := text.dropWhile isBlank

def allBlank (text : List Char) : Bool := text.all isBlank

/-- A line read backwards, turned around and without one carriage return at its end. -/
def endLine : List Char → List Char
  | '\r' :: reversed => reversed.reverse
  | reversed => reversed.reverse

/-- The lines that follow when `reversed` holds the characters of the current line so far, the last
one first. -/
def linesFrom (reversed : List Char) : List Char → List (List Char)
  | [] => if reversed.isEmpty then [] else [reversed.reverse]
  | '\n' :: rest => endLine reversed :: linesFrom [] rest
  | c :: rest => linesFrom (c :: reversed) rest

/-- The lines of a text: a line feed ends a line, together with one carriage return before it. What
follows the last line feed is a line only if it is not empty. -/
def lines (text : List Char) : List (List Char) := linesFrom [] text

end ViewIndex.Text
