import ViewIndex.Query.Continuation

/-!
# Query options

Options select entries by key, say whether they are reduced and how they are grouped, and cut out
the page that is wanted. They are read from an object whose members are all optional, or from an
array of values in a fixed order.
-/

namespace ViewIndex

structure QueryOptions where
  /-- Whether entries are reduced; if not said, they are when the view has a reducer. -/
  reduce : Option Bool := none
  /-- Whether there is a group for every key. -/
  group : Bool := false
  /-- Groups entries by this many components of their keys. -/
  groupLevel : Option Nat := none
  limit : Option Nat := none
  skip : Nat := 0
  descending : Bool := false
  /-- The key at which to start in the direction of travel. -/
  startKey : Option Json := none
  /-- The key at which to end in the direction of travel. -/
  endKey : Option Json := none
  /-- Whether entries at the end belong to the answer. -/
  inclusiveEnd : Bool := true
  key : Option Json := none
  keys : Option (List Json) := none
  /-- The document at which to start under the start key. -/
  startDoc : Option String := none
  /-- The document at which to end under the end key. -/
  endDoc : Option String := none
  /-- The first components of the keys. -/
  leading : Option Json := none
  /-- Where an earlier page was cut short. -/
  continuation : Option Cut := none
  /-- Whether time is up once that many rows are there. -/
  expired : Nat → Bool := fun _ => false

namespace QueryOptions

/-- The names of the options, in the order in which an array holds their values. -/
def names : List String :=
  ["reduce", "group", "group_level", "limit", "skip", "descending", "startkey", "endkey",
    "inclusive_end", "key", "keys", "startkey_docid", "endkey_docid", "prefix", "continuation"]

/-- The members that an object or an array stands for. An array may end early. -/
def members? : Json → Option (List (String × Json))
  | .object members => some members
  | .array values => if values.length ≤ names.length then some (names.zip values) else none
  | _ => none

/-- A value that may be missing: null stands for a missing one, and any other has to be
readable. -/
def optional? {α : Type} (read : Json → Option α) : Option Json → Option (Option α)
  | none | some .null => some none
  | some value => (read value).map some

/-- A value with a default, which only a missing member stands for. -/
def withDefault? {α : Type} (read : Json → Option α) (default : α) : Option Json → Option α
  | none => some default
  | some value => read value

/-- Reads options. Unknown members are ignored; a member of the wrong kind makes the whole
unreadable. -/
def ofJson? (value : Json) : Option QueryOptions := do
  let members ← members? value
  let optional {α : Type} (name : String) (read : Json → Option α) :=
    optional? read (members.lookup name)
  let withDefault {α : Type} (name : String) (read : Json → Option α) (default : α) :=
    withDefault? read default (members.lookup name)
  return {
    reduce := ← optional "reduce" Json.asBool?
    group := ← withDefault "group" Json.asBool? false
    groupLevel := ← optional "group_level" Json.asNat?
    limit := ← optional "limit" Json.asNat?
    skip := ← withDefault "skip" Json.asNat? 0
    descending := ← withDefault "descending" Json.asBool? false
    startKey := ← optional "startkey" some
    endKey := ← optional "endkey" some
    inclusiveEnd := ← withDefault "inclusive_end" Json.asBool? true
    key := ← optional "key" some
    keys := ← optional "keys" Json.asArray?
    startDoc := ← optional "startkey_docid" Json.asText?
    endDoc := ← optional "endkey_docid" Json.asText?
    leading := ← optional "prefix" some
    continuation := ← optional "continuation" Cut.ofJson? }

end QueryOptions

end ViewIndex
