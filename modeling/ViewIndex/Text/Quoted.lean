import ViewIndex.Text.Shapeless

/-!
# Quoted text

`Text.quoted` shows a text between double quotes so that every character can be told from the
output: quotes, backslashes and characters without a shape of their own are escaped.
-/

namespace ViewIndex.Text

/-- A character inside quotes. Those that have neither a shape nor an escape of their own are given
by their code point. -/
def escapeQuoted (c : Char) : String :=
  if c = '\x00' then "\\0"
  else if c = '\t' then "\\t"
  else if c = '\r' then "\\r"
  else if c = '\n' then "\\n"
  else if c = '\\' then "\\\\"
  else if c = '"' then "\\\""
  else if isShapeless c then
    "\\u\x7b" ++ String.ofList (Nat.toDigits 16 c.toNat) ++ "\x7d"
  else c.toString

def quoted (s : String) : String := "\"" ++ String.join (s.toList.map escapeQuoted) ++ "\""

end ViewIndex.Text
