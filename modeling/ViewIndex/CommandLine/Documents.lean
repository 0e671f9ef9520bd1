import ViewIndex.Json.Parser
import ViewIndex.Text.Blank

/-!
# Files of documents

A file of documents is one JSON array, or has a JSON value on every line that is not blank.
-/

namespace ViewIndex.CommandLine

inductive DocumentsError where
  /-- A line holds no JSON value. Only lines that are not blank are counted, from one. -/
  | line (number : Nat)
  /-- The array is broken. -/
  | array
deriving DecidableEq, Repr

/-- What can be said about an unreadable file; about a broken array nothing. -/
def DocumentsError.message : DocumentsError → String
  | .line number => s!"line {number}"
  | .array => ""

/-- The values of lines, the first of which has the given number. -/
def readLines : (number : Nat) → List (List Char) → Except DocumentsError (List Json)
  | _, [] => .ok []
  | number, line :: rest =>
      match Json.parseChars? line with
      | some value => (readLines (number + 1) rest).map (value :: ·)
      | none => .error (.line number)

def readDocuments (text : String) : Except DocumentsError (List Json) :=
  let trimmed := Text.trimStart text.toList
  if trimmed.head? = some '[' then
    match (Json.parseChars? trimmed).bind Json.asArray? with
    | some items => .ok items
    | none => .error .array
  else readLines 1 ((Text.lines text.toList).filter (!Text.allBlank ·))

end ViewIndex.CommandLine
