import ViewIndex.Key.Encoding

/-!
# Entries and cuts

The entries of a view are ordered by key, then by document, then by their place among the emissions
of that document. A `Cut` is a place between two entries. Ranges are given by two cuts, and a page
that was cut short is continued from one.
-/

namespace ViewIndex

/-- What tells an entry from all others of its view. -/
structure EntryId where
  key : EncodedKey
  docId : String
  /-- The place among the entries of the document, from zero. -/
  ordinal : Nat
deriving DecidableEq, Repr

instance : Ord EntryId where
  compare a b :=
    (compare a.key b.key).then ((compare a.docId b.docId).then (compare a.ordinal b.ordinal))

structure Entry where
  id : EntryId
  value : Json
deriving DecidableEq, Repr

/-- A place in the order of entries. -/
inductive Cut where
  | start
  | finish
  /-- Before the first entry whose key is not smaller. -/
  | beforeKey (key : EncodedKey)
  /-- Behind the last entry whose key is not greater. -/
  | afterKey (key : EncodedKey)
  | beforeEntry (id : EntryId)
  | afterEntry (id : EntryId)
  /-- Behind all entries of a document under a key. -/
  | afterDoc (key : EncodedKey) (docId : String)
deriving DecidableEq, Repr

/-- Whether an entry lies before the cut. -/
def Cut.isAfter (cut : Cut) (id : EntryId) : Bool :=
  match cut with
  | .start => false
  | .finish => true
  | .beforeKey key => (compare id.key key).isLT
  | .afterKey key => (compare id.key key).isLE
  | .beforeEntry other => (compare id other).isLT
  | .afterEntry other => (compare id other).isLE
  | .afterDoc key docId => ((compare id.key key).then (compare id.docId docId)).isLE

/-- The entries that lie behind `lo` and before `hi`. -/
structure KeyRange where
  lo : Cut
  hi : Cut
deriving DecidableEq, Repr

namespace KeyRange

def all : KeyRange := ⟨.start, .finish⟩

/-- The entries between two keys, each of which may be missing or excluded. -/
def between (low high : Option EncodedKey) (inclusiveLow inclusiveHigh : Bool) : KeyRange where
  lo :=
    match low with
    | none => .start
    | some key => if inclusiveLow then .beforeKey key else .afterKey key
  hi :=
    match high with
    | none => .finish
    | some key => if inclusiveHigh then .afterKey key else .beforeKey key

def exact (key : EncodedKey) : KeyRange := between (some key) (some key) true true

/-- The cut behind all keys that begin with the given one. -/
def endOfPrefix (key : EncodedKey) : Cut :=
  match key.prefixEnd with
  | some bound => .beforeKey bound
  | none => .finish

/-- The entries whose keys begin with the given one. -/
def startingWith (key : EncodedKey) : KeyRange := ⟨.beforeKey key, endOfPrefix key⟩

/-- The part of a range that a page left over: what follows the cut in the direction of travel. -/
def resume (range : KeyRange) (cut : Cut) (descending : Bool) : KeyRange :=
  if descending then { range with hi := cut } else { range with lo := cut }

/-- Whether an entry lies in the range. -/
def holds (range : KeyRange) (id : EntryId) : Bool := !range.lo.isAfter id && range.hi.isAfter id

end KeyRange

end ViewIndex
