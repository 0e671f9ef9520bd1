import ViewIndex.Query.Plan
import ViewIndex.Store.Snapshot

/-!
# Answers to queries

A query reads its ranges one after the other until it has enough rows or a page is cut short. What
is to be skipped and how many rows are still wanted is carried from range to range.
-/

namespace ViewIndex

structure ViewRow where
  key : Json
  value : Json
  /-- The document of an entry; a group has none. -/
  docId : Option String
deriving DecidableEq, Repr

structure ViewResult where
  rows : List ViewRow
  /-- The number of entries of the view, unless rows were reduced. -/
  totalRows : Option Nat
  /-- The number of entries before the first row, unless rows were reduced. -/
  offset : Option Nat
  /-- Whether the view is too far behind the feed. -/
  stale : Bool := false
  /-- From where to go on, if the answer was cut short. -/
  continuation : Option Cut
deriving DecidableEq, Repr

/-- The pages of several ranges of entries. -/
structure EntryPages where
  rows : List Entry := []
  /-- The offset of the first page. -/
  offset : Option Nat := none
  next : Option Cut := none

/-- The pages of several ranges of groups. -/
structure GroupPages where
  rows : List (EncodedKey × Aggregate) := []
  next : Option Cut := none

namespace QueryOptions

def isFull (options : QueryOptions) (taken : Nat) : Bool := options.limit.any (· ≤ taken)

/-- Whether the limit and what is to be skipped add up to more than a word holds. -/
def overflows (options : QueryOptions) : Bool :=
  options.limit.any fun limit => UInt64.size ≤ limit + options.skip

/-- What is asked of the next range when `taken` rows are there. -/
def pageAfter (options : QueryOptions) (skip taken : Nat) : PageOptions where
  limit := options.limit.map (· - taken)
  skip := skip
  descending := options.descending
  expired n := options.expired (taken + n)

end QueryOptions

namespace Snapshot

/-- Lists the entries of ranges when `skip` of them are still to be skipped and `taken` rows are
there. -/
def listRanges (snapshot : Snapshot) (options : QueryOptions) :
    (ranges : List KeyRange) → (skip taken : Nat) → EntryPages
  | [], _, _ => {}
  | range :: rest, skip, taken =>
      if options.isFull taken then {}
      else
        let page := snapshot.scan range (options.pageAfter skip taken)
        if page.next.isSome then ⟨page.rows, some page.offset, page.next⟩
        else
          let skip := skip - snapshot.tree.countRange range.lo range.hi
          let later := snapshot.listRanges options rest skip (taken + page.rows.length)
          ⟨page.rows ++ later.rows, some page.offset, later.next⟩

/-- Lists the groups of ranges when `skip` of them are still to be skipped and `taken` rows are
there. -/
def groupRanges (r : Reducer) (snapshot : Snapshot) (level : Tree.GroupLevel)
    (options : QueryOptions) : (ranges : List KeyRange) → (skip taken : Nat) → GroupPages
  | [], _, _ => {}
  | range :: rest, skip, taken =>
      if options.isFull taken then {}
      else
        let page := snapshot.reduceRange r range level (options.pageAfter skip taken)
        if page.next.isSome then ⟨page.rows, page.next⟩
        else
          let later := groupRanges r snapshot level options rest (skip - page.skipped)
            (taken + page.rows.length)
          ⟨page.rows ++ later.rows, later.next⟩

/-- A key as it is shown in a row. -/
def shownKey (key : EncodedKey) : Except QueryError Json :=
  (key.decode.map Key.toJson).mapError .key

def entryRow (entry : Entry) : Except QueryError ViewRow := do
  return ⟨← shownKey entry.id.key, entry.value, some entry.id.docId⟩

/-- The row of a group. The group of a whole range shows no key. -/
def groupRow (level : Tree.GroupLevel) (label : EncodedKey) (agg : Aggregate) :
    Except QueryError ViewRow := do
  let key ← if level = .components 0 then pure .null else shownKey label
  return ⟨key, agg.toJson, none⟩

/-- Where to go on after the ranges of a plan. Only a plan of one range can be continued. -/
def continuationOf (ranges : List KeyRange) (next : Option Cut) : Option Cut :=
  if ranges.length = 1 then next else none

/-- Carries a plan out. -/
def run (snapshot : Snapshot) (plan : Plan) (options : QueryOptions) :
    Except QueryError ViewResult := do
  match plan.shape with
  | .entries =>
      let pages := snapshot.listRanges options plan.ranges options.skip 0
      return {
        rows := ← pages.rows.mapM entryRow
        totalRows := some snapshot.len
        offset := some (pages.offset.getD 0)
        continuation := continuationOf plan.ranges pages.next }
  | .groups r level =>
      let pages := groupRanges r snapshot level options plan.ranges options.skip 0
      return {
        rows := ← pages.rows.mapM fun (label, agg) => groupRow level label agg
        totalRows := none
        offset := none
        continuation := continuationOf plan.ranges pages.next }

/-- Answers a query to a view with this reducer. -/
def query (snapshot : Snapshot) (reducer : Option Reducer) (options : QueryOptions) :
    Except QueryError ViewResult := do
  snapshot.run (← options.plan reducer) options

/-- Whether a query that reads one range at most adds words up to more than a word holds: what is to
be skipped and the limit of groups, or the entries before the range. -/
def overflows (snapshot : Snapshot) (reducer : Option Reducer) (options : QueryOptions) : Bool :=
  match options.plan reducer with
  | .error _ => false
  | .ok plan =>
      !options.isFull 0 && plan.ranges.any fun range =>
        match plan.shape with
        | .entries => UInt64.size ≤ snapshot.tree.skippedBy range options.descending + options.skip
        | .groups _ level => level ≠ .components 0 && options.overflows

end Snapshot

/-- A member that is left out if there is no value. -/
def optionalMember {α : Type} (name : String) (write : α → Json) (value : Option α) :
    List (String × Json) :=
  (value.map fun value => (name, write value)).toList

def ViewRow.toJson (row : ViewRow) : Json :=
  .object ([("key", row.key), ("value", row.value)] ++ optionalMember "id" .text row.docId)

def ViewResult.toJson (result : ViewResult) : Json :=
  .object ([("rows", .array (result.rows.map ViewRow.toJson))] ++
    optionalMember "total_rows" .nat result.totalRows ++
    optionalMember "offset" .nat result.offset ++
    [("stale", .bool result.stale)] ++
    optionalMember "continuation" Cut.toJson result.continuation)

end ViewIndex
