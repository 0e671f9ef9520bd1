import ViewIndex.Entry
import ViewIndex.Reducer

/-!
# Reduction trees

The entries of a view are kept in a search tree whose two sides differ in height by at most one.
Every node carries the height and the number of entries of its subtree and their aggregate, so that
a range is counted and reduced along two paths. The operations take the reducer whose aggregates the
tree carries. Nodes are plain data: a tree whose nodes carry wrong values can be written down, and
`Tree.check` finds it out.
-/

namespace ViewIndex

/-- A search tree of entries with its bookkeeping. -/
inductive Tree where
  | nil
  | node (entry : Entry) (left right : Tree) (height len : Nat) (agg : Aggregate)

namespace Tree

/-- The height that the root carries. -/
def height : Tree → Nat
  | nil => 0
  | node _ _ _ height _ _ => height

def len : Tree → Nat
  | nil => 0
  | node _ _ _ _ len _ => len

def agg (r : Reducer) : Tree → Aggregate
  | nil => r.identity
  | node _ _ _ _ _ agg => agg

def isEmpty : Tree → Bool
  | nil => true
  | node .. => false

/-- The entries from left to right. -/
def toList : Tree → List Entry
  | nil => []
  | node entry left right .. => left.toList ++ entry :: right.toList

/-- The number of nodes, counted. -/
def size : Tree → Nat
  | nil => 0
  | node _ left right .. => left.size + right.size + 1

/-- The aggregate of an entry between the entries of two trees. -/
def aggregateOf (r : Reducer) (entry : Entry) (left right : Tree) : Aggregate :=
  r.combine (r.combine (left.agg r) (r.leaf entry.value)) (right.agg r)

/-- The tree of an entry between two trees, with its bookkeeping computed. -/
def join (r : Reducer) (entry : Entry) (left right : Tree) : Tree :=
  node entry left right (1 + max left.height right.height) (1 + left.len + right.len)
    (aggregateOf r entry left right)

/-- Joins when the left tree may be too high: its root, or the root of its right subtree if that is
the higher one, moves to the top. -/
def rotateRight (r : Reducer) (entry : Entry) (left right : Tree) : Tree :=
  match left with
  | node leftEntry outer inner .. =>
      if inner.height ≤ outer.height then join r leftEntry outer (join r entry inner right)
      else
        match inner with
        | node innerEntry a b .. =>
            join r innerEntry (join r leftEntry outer a) (join r entry b right)
        | nil => join r entry left right
  | nil => join r entry left right

/-- Joins when the right tree may be too high. -/
def rotateLeft (r : Reducer) (entry : Entry) (left right : Tree) : Tree :=
  match right with
  | node rightEntry inner outer .. =>
      if inner.height ≤ outer.height then join r rightEntry (join r entry left inner) outer
      else
        match inner with
        | node innerEntry a b .. =>
            join r innerEntry (join r entry left a) (join r rightEntry b outer)
        | nil => join r entry left right
  | nil => join r entry left right

/-- Joins two trees whose heights differ by at most two into one whose sides differ by at most
one. -/
def balance (r : Reducer) (entry : Entry) (left right : Tree) : Tree :=
  if right.height + 1 < left.height then rotateRight r entry left right
  else if left.height + 1 < right.height then rotateLeft r entry left right
  else join r entry left right

/-- Puts an entry in its place. An entry with the same identity is replaced and returned. -/
def insert (r : Reducer) (new : Entry) : Tree → Tree × Option Entry
  | nil => (join r new nil nil, none)
  | node entry left right .. =>
      match compare new.id entry.id with
      | .lt =>
          let (left, old) := insert r new left
          (balance r entry left right, old)
      | .gt =>
          let (right, old) := insert r new right
          (balance r entry left right, old)
      | .eq => (join r new left right, some entry)

/-- The first entry and the tree without it. -/
def removeFirst (r : Reducer) : Tree → Option (Entry × Tree)
  | nil => none
  | node entry left right .. =>
      match removeFirst r left with
      | some (first, left) => some (first, balance r entry left right)
      | none => some (entry, right)

/-- All entries of two trees, the first of which lies before the second. -/
def glue (r : Reducer) (left right : Tree) : Tree :=
  match left, removeFirst r right with
  | nil, _ => right
  | left, some (first, rest) => balance r first left rest
  | left, none => left

/-- Takes the entry with a given identity out and returns it. Without such an entry the tree stays
as it is. -/
def remove (r : Reducer) (id : EntryId) : Tree → Tree × Option Entry
  | nil => (nil, none)
  | tree@(node entry left right ..) =>
      match compare id entry.id with
      | .lt =>
          match remove r id left with
          | (_, none) => (tree, none)
          | (left, removed) => (balance r entry left right, removed)
      | .gt =>
          match remove r id right with
          | (_, none) => (tree, none)
          | (right, removed) => (balance r entry left right, removed)
      | .eq => (glue r left right, some entry)

/-- Removes some entries, then inserts others. -/
def applyDelta (r : Reducer) (tree : Tree) (removed : List EntryId) (inserted : List Entry) :
    Tree :=
  let tree := removed.foldl (fun tree id => (tree.remove r id).1) tree
  inserted.foldl (fun tree entry => (tree.insert r entry).1) tree

/-- The entry with a given identity. -/
def get? (id : EntryId) : Tree → Option Entry
  | nil => none
  | node entry left right .. =>
      match compare id entry.id with
      | .lt => left.get? id
      | .gt => right.get? id
      | .eq => some entry

/-- Of neighbouring entries with one identity, only the last. -/
def keepLast : List Entry → List Entry
  | first :: second :: rest =>
      if first.id = second.id then keepLast (second :: rest)
      else first :: keepLast (second :: rest)
  | entries => entries

/-- The tree of entries in order, the middle one at the root. The number of entries is enough
fuel. -/
def build (r : Reducer) : (fuel : Nat) → List Entry → Tree
  | 0, _ => nil
  | fuel + 1, entries =>
      let middle := entries.length / 2
      match entries.drop middle with
      | [] => nil
      | entry :: after => join r entry (build r fuel (entries.take middle)) (build r fuel after)

/-- The tree of entries in any order. Of those with one identity the last counts. -/
def ofEntries (r : Reducer) (entries : List Entry) : Tree :=
  let sorted := entries.mergeSort fun a b => (compare a.id b.id).isLE
  let distinct := keepLast sorted
  build r distinct.length distinct

end Tree

end ViewIndex
