import ViewIndex.Document
import ViewIndex.Tree.Groups

/-!
# Snapshots and pages

A snapshot is the published state of a view: its tree, the position in the feed up to which it is
current, and the number of its documents. Queries read pages of a snapshot, either of entries or of
groups.

Numbers of a request are machine words, and their sums wrap around as they do in a build for
release. A build that checks its arithmetic stops instead: see `Snapshot.overflows`.
-/

namespace ViewIndex

structure Snapshot where
  tree : Tree := .nil
  position : Position := ∅
  docCount : Nat := 0
  /-- The number of states published before. -/
  generation : Nat := 0

/-- Which part of a range is asked for. -/
structure PageOptions where
  limit : Option Nat := none
  skip : Nat := 0
  descending : Bool := false
  /-- Whether time is up once that many rows are there. -/
  expired : Nat → Bool := fun _ => false

/-- The sum of two words as a word: what does not fit into it is lost. -/
def wordSum (a b : Nat) : Nat := (a + b) % UInt64.size

/-- The place of the first row of a page when `before` entries come before the range. There are no
more entries than a word can tell, so that a sum wraps around only beyond all of them. -/
def placeBehind (before skip total : Nat) : Nat :=
  if before + skip ≤ total then before + skip else min (wordSum before skip) total

/-- A page of entries. -/
structure ScanPage where
  rows : List Entry
  /-- The number of entries of the view. -/
  totalRows : Nat
  /-- The number of entries before the first row in the direction of travel. -/
  offset : Nat
  /-- Where to go on, if the page was cut short. -/
  next : Option Cut

/-- A page of groups. -/
structure ReducePage where
  rows : List (EncodedKey × Aggregate) := []
  /-- The number of groups that were dropped as skipped. -/
  skipped : Nat := 0
  /-- Where to go on, if the page was cut short. -/
  next : Option Cut := none

namespace Snapshot

def len (snapshot : Snapshot) : Nat := snapshot.tree.len

def entries (snapshot : Snapshot) : List Entry := (snapshot.tree.cursor .all false).toList

/-- A scan looks at the clock whenever it has listed this many more rows. -/
def clockInterval : Nat := 64

/-- Whether a scan stops with this many rows. -/
def stopsAt (options : PageOptions) (taken : Nat) : Bool :=
  options.limit.any (· ≤ taken) ||
    (taken % clockInterval == 0 && 0 < taken && options.expired taken)

/-- The cut behind an entry in the direction of travel. -/
def cutBehind (entry : Entry) (descending : Bool) : Cut :=
  if descending then .beforeEntry entry.id else .afterEntry entry.id

/-- A page of the entries of a range. -/
def scan (snapshot : Snapshot) (range : KeyRange) (options : PageOptions) : ScanPage :=
  let total := snapshot.len
  let before := snapshot.tree.skippedBy range options.descending
  let listing := (snapshot.tree.cursor range options.descending).drop options.skip
  let (rows, more) := listing.takeUntil (stopsAt options) 0
  { rows
    totalRows := total
    offset := placeBehind before options.skip total
    next := if more then rows.getLast?.map (cutBehind · options.descending) else none }

/-- The label of the aggregate of a whole range. -/
def wholeLabel : EncodedKey := ⟨[]⟩

/-- The aggregate of a whole range as a page of at most one row. An empty range has no row, and
neither skipping nor a limit of zero leaves one. -/
def reduceWhole (r : Reducer) (snapshot : Snapshot) (range : KeyRange) (options : PageOptions) :
    ReducePage :=
  if snapshot.tree.countRange range.lo range.hi = 0 then {}
  else if 0 < options.skip || options.limit = some 0 then { skipped := min options.skip 1 }
  else { rows := [(wholeLabel, snapshot.tree.reduce r range.lo range.hi)] }

/-- A page of the groups of a range. By no components the whole range is one group. -/
def reduceRange (r : Reducer) (snapshot : Snapshot) (range : KeyRange) (level : Tree.GroupLevel)
    (options : PageOptions) : ReducePage :=
  if level = .components 0 then snapshot.reduceWhole r range options
  else
    let limits : Tree.GroupLimits := ⟨options.limit.map (wordSum · options.skip), options.expired⟩
    let (rows, next) := snapshot.tree.reduceGroups r range level options.descending limits
    { rows := rows.drop options.skip, skipped := min options.skip rows.length, next }

end Snapshot

end ViewIndex
