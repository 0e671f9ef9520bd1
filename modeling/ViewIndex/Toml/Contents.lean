import ViewIndex.Text.Blank
import ViewIndex.Toml.Scalar

/-!
# Settings files

A settings file is a list of lines. A line gives a value to a key, opens the table to which the
following keys belong, or holds nothing but a comment. A key is a path of names, and no key may be
given twice or be a value and a table at once.
-/

namespace ViewIndex.Toml

/-- The names that lead to a value or a table. -/
abbrev Path := List String

/-- A line of a settings file. -/
inductive Line where
  | empty
  | table (path : Path)
  | entry (path : Path) (value : Scalar)
deriving DecidableEq, Repr

/-- The characters of a name that stands without quotes. -/
def isBare (c : Char) : Bool := c.isAlphanum || c == '_' || c == '-'

/-- Reads one name of a path. -/
def readName : List Char → Option (String × List Char)
  | '"' :: rest => (readQuoted rest).map fun (chars, rest) => (String.ofList chars, rest)
  | '\x27' :: rest => (readLiteral rest).map fun (chars, rest) => (String.ofList chars, rest)
  | input =>
      let name := input.takeWhile isBare
      if name.isEmpty then none else some (String.ofList name, input.dropWhile isBare)

/-- The largest number of names in a path. -/
def maxNames : Nat := 79

/-- Reads a path of at most `fuel` names with points between them. -/
def readPath : (fuel : Nat) → List Char → Option (Path × List Char)
  | 0, _ => none
  | fuel + 1, input => do
      let (name, rest) ← readName (skipSpace input)
      match skipSpace rest with
      | '.' :: rest =>
          let (path, rest) ← readPath fuel rest
          return (name :: path, rest)
      | rest => return ([name], rest)

/-- Whether nothing but a comment is left of a line. -/
def isLineEnd (input : List Char) : Bool :=
  match skipSpace input with
  | [] => true
  | '#' :: comment => comment.all isPlain
  | _ => false

/-- Reads a path between brackets, behind the opening ones. -/
def readHeader (closing input : List Char) : Option Line := do
  let (path, rest) ← readPath maxNames input
  guard (closing.isPrefixOf rest && isLineEnd (rest.drop closing.length))
  return .table path

def readLine (input : List Char) : Option Line :=
  if isLineEnd input then some .empty
  else
    match skipSpace input with
    | '[' :: '[' :: rest => readHeader [']', ']'] rest
    | '[' :: rest => readHeader [']'] rest
    | input => do
        let (path, rest) ← readPath maxNames input
        let '=' :: rest := rest | none
        let (value, rest) ← readScalar (skipSpace rest)
        guard (isLineEnd rest)
        return .entry path value

/-- The contents of a settings file so far. -/
structure Contents where
  /-- The values, each with the table in which it stands and its path below that table. -/
  entries : List (Path × Path × Scalar) := []
  /-- The tables that have a line of their own. -/
  tables : List Path := []
  /-- The table to which the next keys belong. -/
  current : Path := []

namespace Contents

/-- Adds a line, unless it does not agree with those before. -/
def add (contents : Contents) : Line → Option Contents
  | .empty => some contents
  | .table path => do
      guard (path ∉ contents.tables)
      guard (contents.entries.all fun (table, key, _) =>
        let full := table ++ key
        !full.isPrefixOf path && !(path.isPrefixOf full && table.length < path.length))
      return { contents with tables := contents.tables ++ [path], current := path }
  | .entry key value => do
      let path := contents.current ++ key
      guard (contents.tables.all fun table => !path.isPrefixOf table)
      guard (contents.entries.all fun (table, other, _) =>
        let full := table ++ other
        !full.isPrefixOf path && !path.isPrefixOf full)
      return { contents with entries := contents.entries ++ [(contents.current, key, value)] }

/-- Reads a settings file. A byte order mark may stand at its start. -/
def ofText? (text : String) : Option Contents := do
  let chars := match text.toList with
    | '\ufeff' :: rest => rest
    | chars => chars
  let lines ← (Text.lines chars).mapM readLine
  lines.foldlM add {}

/-- Whether a name of the top level is that of a table. -/
def isTable (contents : Contents) (name : String) : Bool :=
  contents.tables.any (·.head? == some name) ||
    contents.entries.any fun (table, key, _) =>
      let full := table ++ key
      full.head? == some name && 1 < full.length

/-- The value of a name of the top level. -/
def value? (contents : Contents) (name : String) : Option Scalar :=
  contents.entries.findSome? fun (table, key, value) =>
    if table ++ key = [name] then some value else none

end Contents

end ViewIndex.Toml
