import ViewIndex.Query.Error
import ViewIndex.Query.Options
import ViewIndex.Reducer
import ViewIndex.Tree.Groups

/-!
# Query plans

A plan says which ranges of a view are read and whether their entries or their groups become rows.
Ranges are always written in ascending order; a query that travels downwards reads them from their
ends.
-/

namespace ViewIndex

/-- What the rows of an answer stand for. -/
inductive RowShape where
  | entries
  | groups (r : Reducer) (level : Tree.GroupLevel)

structure Plan where
  ranges : List KeyRange
  shape : RowShape

def encodeQueryKey (value : Json) : Except QueryError EncodedKey :=
  (Key.ofJson value >>= Key.encode).mapError .key

namespace QueryOptions

/-- By what entries are grouped. Without any request they form one group. -/
def grouping (options : QueryOptions) : Tree.GroupLevel :=
  match options.groupLevel with
  | some level => .components level
  | none => if options.group then .wholeKey else .components 0

/-- What the rows stand for in a view with this reducer. -/
def shape (options : QueryOptions) (reducer : Option Reducer) : Except OptionsFault RowShape :=
  if options.reduce.getD reducer.isSome then
    match reducer with
    | some r => .ok (.groups r options.grouping)
    | none => .error .noReducer
  else if options.group || options.groupLevel.isSome then .error .groupsNotReduced
  else .ok .entries

/-- Whether entries are selected by where they start or end. -/
def isBounded (options : QueryOptions) : Bool :=
  options.startKey.isSome || options.endKey.isSome || options.startDoc.isSome ||
    options.endDoc.isSome

/-- The number of ways in which entries are selected. -/
def selectorCount (options : QueryOptions) : Nat :=
  [options.key.isSome, options.keys.isSome, options.leading.isSome, options.isBounded].count true

/-- Finds what contradicts itself in the selection of entries. -/
def checkSelectors (options : QueryOptions) (shape : RowShape) : Except OptionsFault Unit := do
  if 1 < options.selectorCount then throw .severalSelectors
  if options.keys.isSome then
    if let .groups _ (.components 0) := shape then throw .keysNotGrouped
    if options.continuation.isSome then throw .keysContinued

/-- The cut at which to start. The start always belongs to the answer. -/
def startCut (options : QueryOptions) (key : EncodedKey) : Cut :=
  match options.startDoc, options.descending with
  | none, false => .beforeKey key
  | none, true => .afterKey key
  | some doc, false => .beforeEntry ⟨key, doc, 0⟩
  | some doc, true => .afterDoc key doc

/-- The cut at which to end. Entries at the end lie before it in the direction of travel if they
belong to the answer. -/
def endCut (options : QueryOptions) (key : EncodedKey) : Cut :=
  match options.endDoc, options.descending == options.inclusiveEnd with
  | none, true => .beforeKey key
  | none, false => .afterKey key
  | some doc, true => .beforeEntry ⟨key, doc, 0⟩
  | some doc, false => .afterDoc key doc

/-- Whether one key lies behind another in the direction of travel. -/
def isBehind (options : QueryOptions) (start finish : EncodedKey) : Bool :=
  if options.descending then (compare start finish).isLT else (compare start finish).isGT

/-- The range between the start and the end; there is none if the start lies behind the end. A
document without its key bounds nothing. -/
def boundedRange? (options : QueryOptions) : Except QueryError (Option KeyRange) := do
  let start ← options.startKey.mapM encodeQueryKey
  let finish ← options.endKey.mapM encodeQueryKey
  if start.any fun s => finish.any fun e => options.isBehind s e then return none
  let first := start.map options.startCut
  let last := finish.map options.endCut
  if options.descending then return some ⟨last.getD .start, first.getD .finish⟩
  else return some ⟨first.getD .start, last.getD .finish⟩

/-- The ranges of the selected entries. -/
def selectedRanges (options : QueryOptions) : Except QueryError (List KeyRange) := do
  match options.keys, options.key, options.leading with
  | some keys, _, _ => keys.mapM fun key => do return .exact (← encodeQueryKey key)
  | none, some key, _ => return [.exact (← encodeQueryKey key)]
  | none, none, some start => return [.startingWith (← encodeQueryKey start)]
  | none, none, none => return (← options.boundedRange?).toList

/-- The plan of a query to a view with this reducer. -/
def plan (options : QueryOptions) (reducer : Option Reducer) : Except QueryError Plan := do
  let shape ← (options.shape reducer).mapError .options
  (options.checkSelectors shape).mapError .options
  let ranges ← options.selectedRanges
  let ranges :=
    match options.continuation with
    | some cut => ranges.map (·.resume cut options.descending)
    | none => ranges
  return ⟨ranges, shape⟩

end QueryOptions

end ViewIndex
