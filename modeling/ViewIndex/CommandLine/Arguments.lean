/-!
# Command line arguments

Every option has a name and may be given once. A value follows as the next argument or, behind an
equals sign, in the same one; a value in an argument of its own does not begin with a dash, unless
it is nothing else. There are no arguments but options.
-/

namespace ViewIndex.CommandLine

structure Arguments where
  docs : String
  config : Option String := none
  /-- The directory in which the views are stored. -/
  persist : Option String := none
  batchSize : Option Nat := none
  partitions : Option Nat := none
  view : Option String := none
  key : Option String := none
  startKey : Option String := none
  endKey : Option String := none
  leading : Option String := none
  reduce : Option Bool := none
  groupLevel : Option Nat := none
  limit : Option Nat := none
  skip : Option Nat := none
  descending : Bool := false
  stats : Bool := false
  /-- The content whose answers are counted. -/
  answerStats : Option String := none
  choices : Option Nat := none
deriving DecidableEq, Repr

def valueOptions : List String :=
  ["docs", "config", "persist", "batch-size", "partitions", "view", "key", "startkey", "endkey",
    "prefix", "reduce", "group-level", "limit", "skip", "answer-stats", "choices"]

def flags : List String := ["descending", "stats"]

/-- Options with their values; a flag has none. -/
abbrev Given := List (String × Option String)

/-- The name of an option, its leading dashes removed, and the value in the same argument. The short
form of `config` may have its value right behind the letter. -/
def splitArgument? (argument : String) : Option (String × Option String) :=
  match argument.toList with
  | '-' :: '-' :: name =>
      let value := name.dropWhile (· != '=')
      some (String.ofList (name.takeWhile (· != '=')),
        if value.isEmpty then none else some (String.ofList (value.drop 1)))
  | '-' :: 'c' :: rest =>
      match rest with
      | [] => some ("config", none)
      | '=' :: value => some ("config", some (String.ofList value))
      | value => some ("config", some (String.ofList value))
  | _ => none

/-- Whether an argument can be the value of the option before it. -/
def isValue (argument : String) : Bool := argument == "-" || !argument.startsWith "-"

/-- The options of a list of arguments. -/
def scan : List String → Option Given
  | [] => some []
  | ["--"] => some []
  | argument :: rest => do
      let (name, attached) ← splitArgument? argument
      if name ∈ flags then
        guard attached.isNone
        return (name, none) :: (← scan rest)
      else
        guard (name ∈ valueOptions)
        match attached, rest with
        | some value, rest => return (name, some value) :: (← scan rest)
        | none, value :: rest =>
            guard (isValue value)
            return (name, some value) :: (← scan rest)
        | none, [] => none

/-- A value as it is written, unless it is empty. -/
def path? (value : String) : Option String := if value.isEmpty then none else some value

/-- The number that digits denote; a plus sign may stand before them. -/
def natOfDigits? (digits : List Char) : Option Nat :=
  let digits := match digits with
    | '+' :: digits => digits
    | digits => digits
  if digits.isEmpty || !digits.all Char.isDigit then none
  else some (digits.foldl (fun n d => 10 * n + (d.toNat - '0'.toNat)) 0)

/-- A count that fits 64 bits. -/
def count? (value : String) : Option Nat := (natOfDigits? value.toList).filter (· < UInt64.size)

/-- A count that fits 32 bits. Zero may have a minus sign. -/
def smallCount? (value : String) : Option Nat :=
  match value.toList with
  | '-' :: digits =>
      if !digits.isEmpty && digits.all (· == '0') then some 0 else none
  | digits => (natOfDigits? digits).filter (· < UInt32.size)

def bool? : String → Option Bool
  | "true" => some true
  | "false" => some false
  | _ => none

/-- The value of an option, if it is given; one that cannot be read makes the call unusable. -/
def valueOf {α : Type} (given : Given) (name : String) (read : String → Option α) :
    Option (Option α) :=
  match given.lookup name with
  | some value => (value.bind read).map some
  | none => some none

def Arguments.ofList? (arguments : List String) : Option Arguments := do
  let given ← scan arguments
  guard (given.map Prod.fst).Nodup
  let value {α : Type} (name : String) (read : String → Option α) := valueOf given name read
  return {
    docs := ← (← value "docs" path?)
    config := ← value "config" path?
    persist := ← value "persist" path?
    batchSize := ← value "batch-size" count?
    partitions := ← value "partitions" smallCount?
    view := ← value "view" some
    key := ← value "key" some
    startKey := ← value "startkey" some
    endKey := ← value "endkey" some
    leading := ← value "prefix" some
    reduce := ← value "reduce" bool?
    groupLevel := ← value "group-level" count?
    limit := ← value "limit" count?
    skip := ← value "skip" count?
    descending := (given.lookup "descending").isSome
    stats := (given.lookup "stats").isSome
    answerStats := ← value "answer-stats" some
    choices := ← value "choices" count? }

end ViewIndex.CommandLine
