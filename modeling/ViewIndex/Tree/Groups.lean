import ViewIndex.Tree.Range

/-!
# Groups of a tree

Entries whose keys share their first components form a group. `Tree.reduceGroups` finds the groups
of a range one after the other and reduces each of them as a range of its own, without visiting its
entries.
-/

namespace ViewIndex.Tree

/-- How many groups are wanted, and whether time is up once that many are there. -/
structure GroupLimits where
  limit : Option Nat := none
  expired : Nat → Bool := fun _ => false

/-- Whether to stop with this many groups. Time is never up before the first group, so that every
call gets ahead. -/
def GroupLimits.reached (limits : GroupLimits) (taken : Nat) : Bool :=
  limits.limit.any (· ≤ taken) || (0 < taken && limits.expired taken)

/-- The later of two cuts in a tree, the first if no entry lies between them. -/
def laterCut (tree : Tree) (a b : Cut) : Cut :=
  if tree.countBefore b ≤ tree.countBefore a then a else b

/-- The earlier of two cuts in a tree, the first if no entry lies between them. -/
def earlierCut (tree : Tree) (a b : Cut) : Cut :=
  if tree.countBefore a ≤ tree.countBefore b then a else b

/-- What the entries of a group have in common. -/
inductive GroupLevel where
  /-- The first components of their keys, this many at most. -/
  | components (count : Nat)
  | wholeKey
deriving DecidableEq, Repr

namespace GroupLevel

def label (level : GroupLevel) (key : EncodedKey) : EncodedKey :=
  match level with
  | .components count => key.groupLabel count
  | .wholeKey => key

/-- The cut behind the group of a label. A label of fewer components than asked for is a whole key,
and then the group holds only the entries with this key. -/
def bound (level : GroupLevel) (label : EncodedKey) : Cut :=
  match level with
  | .components count =>
      if label.arity.toOption = some count then KeyRange.endOfPrefix label else .afterKey label
  | .wholeKey => .afterKey label

end GroupLevel

/-- Groups with their labels and aggregates, and the cut from which to go on if some were left
over. -/
abbrev GroupRows := List (EncodedKey × Aggregate) × Option Cut

/-- The part of a range that belongs to the group at its start, and the rest of the range. -/
def splitGroup (tree : Tree) (range : KeyRange) (label : EncodedKey) (level : GroupLevel)
    (descending : Bool) : KeyRange × KeyRange :=
  if descending then
    let bound := .beforeKey label
    (⟨tree.laterCut range.lo bound, range.hi⟩, ⟨range.lo, bound⟩)
  else
    let bound := level.bound label
    (⟨range.lo, tree.earlierCut range.hi bound⟩, ⟨bound, range.hi⟩)

/-- The groups of what is left of a range when `taken` groups are there. Each round takes at least
one entry, so the number of entries bounds the rounds. -/
def groupsFrom (r : Reducer) (tree : Tree) (level : GroupLevel) (descending : Bool)
    (limits : GroupLimits) : (fuel taken : Nat) → KeyRange → GroupRows
  | 0, _, _ => ([], none)
  | fuel + 1, taken, range =>
      match tree.first? range descending with
      | none => ([], none)
      | some first =>
          if limits.reached taken then ([], some (if descending then range.hi else range.lo))
          else
            let label := level.label first.id.key
            let (group, rest) := tree.splitGroup range label level descending
            let (rows, next) := groupsFrom r tree level descending limits fuel (taken + 1) rest
            ((label, tree.reduce r group.lo group.hi) :: rows, next)

/-- The groups of a range, each with its label and aggregate, in the direction of travel. -/
def reduceGroups (r : Reducer) (tree : Tree) (range : KeyRange) (level : GroupLevel)
    (descending : Bool) (limits : GroupLimits) : GroupRows :=
  groupsFrom r tree level descending limits (tree.countRange range.lo range.hi + 1) 0 range

end ViewIndex.Tree
