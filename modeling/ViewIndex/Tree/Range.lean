import ViewIndex.Tree.Basic

/-!
# Ranges of a tree

Counting, reducing and listing the entries between two cuts. A count or an aggregate takes two paths
from the root. Entries are listed by a `Cursor`, which visits no more of the tree than is asked
for.
-/

namespace ViewIndex.Tree

def countBefore (cut : Cut) : Tree → Nat
  | nil => 0
  | node entry left right .. =>
      if cut.isAfter entry.id then left.len + 1 + right.countBefore cut else left.countBefore cut

/-- The number of entries between two cuts; none if they cross. -/
def countRange (tree : Tree) (lo hi : Cut) : Nat := tree.countBefore hi - tree.countBefore lo

/-- The number of entries that come before a range in the direction of travel. -/
def skippedBy (tree : Tree) (range : KeyRange) (descending : Bool) : Nat :=
  if descending then tree.len - tree.countBefore range.hi else tree.countBefore range.lo

/-- The aggregate of the entries between two cuts, a missing cut being no bound. -/
def reduceBetween (r : Reducer) (tree : Tree) (lo hi : Option Cut) : Aggregate :=
  match tree with
  | nil => r.identity
  | node entry left right _ _ agg =>
      if lo.isNone && hi.isNone then agg
      else if lo.any (·.isAfter entry.id) then reduceBetween r right lo hi
      else if hi.any (!·.isAfter entry.id) then reduceBetween r left lo hi
      else
        r.combine (r.combine (reduceBetween r left lo none) (r.leaf entry.value))
          (reduceBetween r right none hi)

/-- The aggregate of the entries between two cuts. -/
def reduce (r : Reducer) (tree : Tree) (lo hi : Cut) : Aggregate :=
  reduceBetween r tree (some lo) (some hi)

/-- A listing of a range under way. Each pending entry comes with the subtree whose entries are
listed right after it. -/
structure Cursor where
  range : KeyRange
  descending : Bool
  pending : List (Entry × Tree)

namespace Cursor

/-- Whether an entry lies beyond the end at which the listing starts. -/
def skips (range : KeyRange) (descending : Bool) (id : EntryId) : Bool :=
  if descending then !range.hi.isAfter id else range.lo.isAfter id

/-- Whether an entry lies beyond the end at which the listing stops. -/
def stops (range : KeyRange) (descending : Bool) (id : EntryId) : Bool :=
  if descending then range.lo.isAfter id else !range.hi.isAfter id

/-- Descends to the first entry of the range. The entries on the way that follow it are left
pending. -/
def seek (range : KeyRange) (descending : Bool) (pending : List (Entry × Tree)) :
    Tree → List (Entry × Tree)
  | nil => pending
  | node entry left right .. =>
      match descending, skips range descending entry.id with
      | false, true => seek range descending pending right
      | false, false => seek range descending ((entry, right) :: pending) left
      | true, true => seek range descending pending left
      | true, false => seek range descending ((entry, left) :: pending) right

/-- Descends to the first entry of a subtree. -/
def descend (descending : Bool) (pending : List (Entry × Tree)) : Tree → List (Entry × Tree)
  | nil => pending
  | node entry left right .. =>
      if descending then descend descending ((entry, left) :: pending) right
      else descend descending ((entry, right) :: pending) left

/-- The next entry and the listing after it. -/
def next? (cursor : Cursor) : Option (Entry × Cursor) :=
  match cursor.pending with
  | [] => none
  | (entry, subtree) :: rest =>
      if stops cursor.range cursor.descending entry.id then none
      else some (entry, { cursor with pending := descend cursor.descending rest subtree })

/-- The number of entries that pending entries stand for. -/
def pendingSize : List (Entry × Tree) → Nat
  | [] => 0
  | (_, subtree) :: rest => subtree.size + 1 + pendingSize rest

theorem pendingSize_descend (descending : Bool) (pending : List (Entry × Tree)) (tree : Tree) :
    pendingSize (descend descending pending tree) = tree.size + pendingSize pending := by
  induction tree generalizing pending with
  | nil => simp [descend, size]
  | node entry left right height len agg ihleft ihright =>
      rw [descend]
      split
      next => simp only [ihright, pendingSize, size]; omega
      next => simp only [ihleft, pendingSize, size]; omega

theorem pendingSize_lt_of_next? {cursor later : Cursor} {entry : Entry}
    (h : cursor.next? = some (entry, later)) :
    pendingSize later.pending < pendingSize cursor.pending := by
  unfold next? at h
  split at h
  next => simp at h
  next first subtree rest hpending =>
    split at h
    next => simp at h
    next =>
      obtain ⟨_, rfl⟩ := by simpa using h
      simp only [pendingSize_descend, hpending, pendingSize]
      omega

/-- The listing without its first `n` entries. -/
def drop : (n : Nat) → Cursor → Cursor
  | 0, cursor => cursor
  | n + 1, cursor =>
      match cursor.next? with
      | some (_, later) => drop n later
      | none => cursor

/-- All entries that are still to be listed. -/
def toList (cursor : Cursor) : List Entry :=
  match h : cursor.next? with
  | none => []
  | some (entry, later) =>
      have := pendingSize_lt_of_next? h
      entry :: later.toList
termination_by pendingSize cursor.pending

/-- Lists entries until `stop` says to, given how many are listed already. The flag tells whether an
entry was left over. -/
def takeUntil (stop : Nat → Bool) (taken : Nat) (cursor : Cursor) : List Entry × Bool :=
  match h : cursor.next? with
  | none => ([], false)
  | some (entry, later) =>
      if stop taken then ([], true)
      else
        have := pendingSize_lt_of_next? h
        let (entries, more) := later.takeUntil stop (taken + 1)
        (entry :: entries, more)
termination_by pendingSize cursor.pending

end Cursor

/-- The listing of the entries between two cuts. -/
def cursor (tree : Tree) (range : KeyRange) (descending : Bool) : Cursor :=
  ⟨range, descending, Cursor.seek range descending [] tree⟩

/-- The first entry between two cuts in the direction of travel. -/
def first? (tree : Tree) (range : KeyRange) (descending : Bool) : Option Entry :=
  (tree.cursor range descending).next?.map Prod.fst

end ViewIndex.Tree
