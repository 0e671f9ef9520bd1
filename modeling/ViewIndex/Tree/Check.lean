import ViewIndex.Tree.Basic

/-!
# Checking a tree

`Tree.check` walks through a tree and finds the first place where its order, its heights and counts
or its aggregates are wrong. Places are counted in entries from the left.
-/

namespace ViewIndex

inductive StructureError where
  | outOfOrder (position : Nat)
  | aggregateMismatch (position : Nat)
  | bookkeeping (position : Nat)
  /-- The entries of a document are not those that are kept for it. -/
  | docIndexMismatch (docId : String)
deriving DecidableEq, Repr

def StructureError.message : StructureError → String
  | .outOfOrder position => s!"entries out of order at position {position}"
  | .aggregateMismatch position => s!"aggregate mismatch in subtree rooted at position {position}"
  | .bookkeeping position =>
      s!"node bookkeeping (height/len) inconsistent at position {position}"
  | .docIndexMismatch docId => s!"doc-id index disagrees with tree contents for '{docId}'"

namespace Tree

/-- How far a check has come: the last entry and the number of entries so far. -/
structure Progress where
  last : Option EntryId := none
  position : Nat := 0

/-- Whether the height and the count that a node carries follow from its subtrees. -/
def bookkept (left right : Tree) (height len : Nat) : Bool :=
  height == 1 + max left.height right.height && left.height ≤ right.height + 1 &&
    right.height ≤ left.height + 1 && len == 1 + left.len + right.len

/-- Checks a subtree behind the entries of `progress`, and returns the aggregate of its entries
computed anew. An entry has to lie behind the one before it; then heights, counts and the aggregate
of the node are compared, after those of its subtrees. -/
def checkFrom (r : Reducer) (progress : Progress) :
    Tree → Except StructureError (Aggregate × Progress)
  | nil => .ok (r.identity, progress)
  | node entry left right height len agg => do
      let (leftAgg, progress) ← checkFrom r progress left
      let here := progress.position
      if progress.last.any fun last => (compare last entry.id).isGE then
        throw (.outOfOrder here)
      let (rightAgg, progress) ← checkFrom r ⟨some entry.id, here + 1⟩ right
      if !bookkept left right height len then throw (.bookkeeping here)
      let computed := r.combine (r.combine leftAgg (r.leaf entry.value)) rightAgg
      if !computed.approxEq agg then throw (.aggregateMismatch here)
      return (computed, progress)

/-- Whether the tree is in order, with everything that it carries right up to rounding. -/
def check (r : Reducer) (tree : Tree) : Except StructureError Unit :=
  (checkFrom r {} tree).map fun _ => ()

end Tree

end ViewIndex
