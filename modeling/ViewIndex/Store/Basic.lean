import ViewIndex.Store.Snapshot
import ViewIndex.Tree.Check

/-!
# The index of one view

An index holds the entries of a view in a tree and, for each document, the identities of its
entries. Documents are replaced as a whole: an update lists all entries of a document, and an empty
list takes it out of the view. Every write publishes one new snapshot.
-/

namespace ViewIndex

/-- All entries of one document in a view. -/
structure DocUpdate where
  docId : String
  entries : List (EncodedKey × Json)
deriving DecidableEq, Repr

namespace DocUpdate

/-- Takes a document out of the view. -/
def removal (docId : String) : DocUpdate := ⟨docId, []⟩

/-- The entries with their identities; the ordinals follow the order of the list. -/
def indexEntries (update : DocUpdate) : List Entry :=
  update.entries.mapIdx fun ordinal (key, value) => ⟨⟨key, update.docId, ordinal⟩, value⟩

end DocUpdate

structure IndexStore where
  name : String
  reducer : Reducer
  current : Snapshot := {}
  /-- For each document with entries their identities, in the order of their ordinals. -/
  byDoc : Std.ExtTreeMap String (List EntryId) := ∅

namespace IndexStore

/-- The empty index of a view. Without a reducer the entries are counted, so that the tree is kept
and checked the same way. -/
def empty (name : String) (reducer : Option Reducer) : IndexStore where
  name := name
  reducer := reducer.getD .count

def position (store : IndexStore) : Position := store.current.position

def keysOf (store : IndexStore) (docId : String) : List EncodedKey :=
  (store.byDoc.getD docId []).map EntryId.key

/-- Trees and document lists while a batch is applied, with the numbers of entries taken out and
put in. -/
structure BatchState where
  tree : Tree
  byDoc : Std.ExtTreeMap String (List EntryId)
  removed : Nat := 0
  inserted : Nat := 0

/-- Replaces the entries of one document. -/
def BatchState.apply (r : Reducer) (state : BatchState) (update : DocUpdate) : BatchState :=
  let old := state.byDoc.getD update.docId []
  let entries := update.indexEntries
  { tree := state.tree.applyDelta r old entries
    byDoc :=
      if entries.isEmpty then state.byDoc.erase update.docId
      else state.byDoc.insert update.docId (entries.map Entry.id)
    removed := state.removed + old.length
    inserted := state.inserted + entries.length }

def publish (store : IndexStore) (tree : Tree) (byDoc : Std.ExtTreeMap String (List EntryId))
    (position : Position) : IndexStore :=
  { store with
    byDoc
    current := ⟨tree, position, byDoc.size, store.current.generation + 1⟩ }

/-- Applies updates one after the other and publishes the result as one step. The position stays if
none is given. Also returns the numbers of entries taken out and put in. -/
def applyBatch (store : IndexStore) (updates : List DocUpdate) (position : Option Position) :
    IndexStore × Nat × Nat :=
  let start : BatchState := ⟨store.current.tree, store.byDoc, 0, 0⟩
  let state := updates.foldl (BatchState.apply store.reducer) start
  (store.publish state.tree state.byDoc (position.getD store.position),
    state.removed, state.inserted)

/-- Replaces the entries of one document. -/
def upsert (store : IndexStore) (docId : String) (entries : List (EncodedKey × Json)) :
    IndexStore :=
  (store.applyBatch [⟨docId, entries⟩] none).1

/-- Takes one document out. -/
def remove (store : IndexStore) (docId : String) : IndexStore :=
  (store.applyBatch [.removal docId] none).1

/-- The document lists of a set of documents; those without entries have none. -/
def listDocs (docs : List DocUpdate) : Std.ExtTreeMap String (List EntryId) :=
  docs.foldl (fun byDoc doc =>
    if doc.entries.isEmpty then byDoc
    else byDoc.insert doc.docId (doc.indexEntries.map Entry.id)) ∅

/-- Replaces everything by the given documents, building the tree anew. -/
def replaceAll (store : IndexStore) (docs : List DocUpdate) (position : Position) : IndexStore :=
  store.publish (Tree.ofEntries store.reducer (docs.flatMap DocUpdate.indexEntries))
    (listDocs docs) position

/-- Checks the tree, and that the document lists and the tree have the same entries. -/
def check (store : IndexStore) : Except StructureError Unit := do
  let tree := store.current.tree
  tree.check store.reducer
  let missing := store.byDoc.toList.find? fun (_, ids) => ids.any fun id => (tree.get? id).isNone
  if let some (docId, _) := missing then throw (.docIndexMismatch docId)
  let listed := (store.byDoc.toList.map fun (_, ids) => ids.length).foldr (· + ·) 0
  if listed ≠ tree.len then
    let stray := store.current.entries.find? fun entry => !store.byDoc.contains entry.id.docId
    throw (.docIndexMismatch ((stray.map (·.id.docId)).getD ""))

end IndexStore

end ViewIndex
