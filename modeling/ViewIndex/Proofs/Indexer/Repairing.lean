import ViewIndex.Feed.Recorded
import ViewIndex.Proofs.Indexer.Publishing

/-!
# Repairing

An index that the check finds damaged is built anew from a listing of all documents. Whatever was
wrong with it, the result has the entries of the listed documents and nothing else, and a listing
that is turned down leaves the index as it was. The index is published before it is stored, so what
keeps the new state from being stored does not keep the index from being repaired, but it is
reported.
-/

namespace ViewIndex

namespace Storage.Checkpoint

/-- Whether a snapshot can be stored in place of all that is stored. -/
def storeAnew (checkpoint : Checkpoint) (snapshot : Snapshot) (now : Nat) :
    Except StorageError Unit :=
  match checkpoint.reset with
  | (.error e, _) => .error e
  | (.ok (), emptied) => (emptied.writeSnapshot snapshot now).1

end Storage.Checkpoint

/-! ## Listings -/

/-- The entries that the documents of a store have. One on which the map fails has none. -/
def View.contentsOf (view : View) (store : MemoryStore) : Contents := fun docId =>
  (store.docs[docId]?.map view.entriesOf).getD []

/-- A listing of all documents of a store in any order, after which the feed is where the store
is. -/
structure ChangeFeed.Listing {φ : Type} [ChangeFeed φ] (feed : φ) (store : MemoryStore)
    (docs : List Document) (position : Position) : Prop where
  wellFormed : store.WellFormed
  perm : docs.Perm store.listAll.1
  position_eq : position = store.listAll.2
  partitions_eq : ChangeFeed.partitions feed = store.partitions
  tail_eq : ∀ p, ChangeFeed.tail feed p = store.tail p

section Listing

variable {φ : Type} [ChangeFeed φ] {feed : φ} {store : MemoryStore} {docs : List Document}
  {position : Position}

theorem ChangeFeed.Listing.tailPosition_eq (h : ChangeFeed.Listing feed store docs position) :
    position = ChangeFeed.tailPosition feed := by
  rw [h.position_eq, Indexer.listAll_snd h.wellFormed.toNumbered, tailPosition, h.partitions_eq]
  simp only [h.tail_eq]
  rfl

theorem ChangeFeed.Listing.nodup (h : ChangeFeed.Listing feed store docs position) :
    (docs.map Document.id).Nodup :=
  (h.perm.map Document.id).symm.nodup (View.docId_nodup (Indexer.id_of_docs h.wellFormed))

theorem ChangeFeed.Listing.setAll_updates (h : ChangeFeed.Listing feed store docs position)
    (view : View) :
    Contents.empty.setAll (docs.filterMap view.update?) = view.contentsOf store := by
  have hid := Indexer.id_of_docs h.wellFormed
  rw [Contents.setAll_perm _ (h.perm.filterMap _) (View.nodup_updates view h.nodup)]
  funext docId
  exact (congrFun (View.setAll_updates (View.docId_nodup hid) fun _ _ => rfl) docId).trans
    (View.setAll_docs hid docId)

end Listing

/-! ## Repairing -/

namespace Indexer

open Storage (Checkpoint)

/-- Whether a snapshot can be stored anew, if the view is stored. -/
def storeAnew (ix : Indexer) (snapshot : Snapshot) (now : Nat) : Except StorageError Unit :=
  match ix.checkpoint with
  | none => .ok ()
  | some checkpoint => checkpoint.storeAnew snapshot now

theorem load_fst (ix : Indexer) (docs : List Document) (position : Position) (now : Nat) :
    (ix.load docs position now).1
      = ix.storeAnew (ix.store.replaceAll (docs.filterMap ix.view.update?) position).current now := by
  unfold load storeAnew discardStored
  dsimp only
  rw [View.collectUpdates_eq_filterMap View.evaluate_eq_update?]
  cases ix.checkpoint with
  | none => rfl
  | some checkpoint =>
      dsimp only
      rw [Checkpoint.storeAnew]
      cases checkpoint.reset with
      | mk result emptied =>
          cases result with
          | error e => rfl
          | ok _ =>
              dsimp only [writeImage]
              split
              next heq => rw [heq]
              next heq => rw [heq]

variable {φ : Type} [ChangeFeed φ]

/-- An index that was built anew from the documents of a store. -/
structure Repaired (ix : Indexer) (store : MemoryStore) (feed : φ) (later : Indexer) : Prop where
  refines : later.store.Refines (ix.view.contentsOf store)
  position_eq : later.position = ChangeFeed.tailPosition feed
  lag_eq : later.lag feed = 0
  state_eq : later.state =
    if ix.state = .idle ∨ ix.state = .rebuilding then .catchingUp else ix.state

theorem stateAfterRebuild_eq (state : Lifecycle) : stateAfterRebuild state
    = if state = .idle ∨ state = .rebuilding then .catchingUp else state := by
  cases state <;> rfl

theorem lag_tailPosition (feed : φ) :
    Position.lag (ChangeFeed.tailPosition feed) (ChangeFeed.tailPosition feed) = 0 :=
  Position.lag_eq_zero fun _ hp => (Position.seq_upTo _ hp).ge

theorem repaired_rebuild {ix : Indexer} (hexact : ix.store.reducer.IsExact) {feed final : φ}
    {docs : List Document} {position : Position} {store : MemoryStore}
    (hlist : ChangeFeed.listAll feed = (.ok (docs, position), final))
    (hlisting : ChangeFeed.Listing final store docs position) (now : Nat) :
    Repaired ix store final (ix.rebuild feed now).indexer := by
  obtain ⟨tally, checkpoint, since, hload⟩ :=
    load_snd { ix with state := .rebuilding, rebuilds := ix.rebuilds + 1 } docs position now
  have hholds :=
    IndexStore.holds_replaceAll ix.store (View.nodup_updates ix.view hlisting.nodup) position
  rw [hlisting.setAll_updates] at hholds
  have hrefines := hholds.refines hexact
  rw [rebuild, bulkLoad, hlist]
  dsimp only
  rw [hload]
  exact {
    refines := hrefines
    position_eq := hlisting.tailPosition_eq
    lag_eq := by
      change Position.lag (ChangeFeed.tailPosition final) position = 0
      rw [hlisting.tailPosition_eq]
      exact lag_tailPosition final
    state_eq := stateAfterRebuild_eq ix.state }

/-- What a rebuild returns is whether its new state could be stored. -/
theorem rebuild_result (ix : Indexer) {feed final : φ} {docs : List Document} {position : Position}
    (hlist : ChangeFeed.listAll feed = (.ok (docs, position), final)) (now : Nat) :
    (ix.rebuild feed now).result
      = (ix.storeAnew (ix.rebuild feed now).indexer.store.current now).mapError .storage := by
  obtain ⟨tally, checkpoint, since, hload⟩ :=
    load_snd { ix with state := .rebuilding, rebuilds := ix.rebuilds + 1 } docs position now
  rw [rebuild, bulkLoad, hlist]
  dsimp only
  rw [load_fst, hload]
  rfl

/-- An index whose check finds nothing wrong stays as it is. A damaged one is built anew from the
documents that are listed, and the damage is returned, or the reason why the new state cannot be
stored. If the listing is turned down, the index stays as it is. -/
theorem verifyAndRepair_spec (ix : Indexer) (hexact : ix.store.reducer.IsExact) (feed : φ)
    (now : Nat) :
    (ix.store.check = .ok () → ix.verifyAndRepair feed now = ⟨.ok .healthy, ix, feed⟩) ∧
    ∀ damage, ix.store.check = .error damage →
      (∀ docs position final store,
        ChangeFeed.listAll feed = (.ok (docs, position), final) →
        ChangeFeed.Listing final store docs position →
          Repaired ix store final (ix.verifyAndRepair feed now).indexer ∧
          (ix.verifyAndRepair feed now).feed = final ∧
          (ix.verifyAndRepair feed now).result
            = match ix.storeAnew (ix.verifyAndRepair feed now).indexer.store.current now with
              | .ok () => .ok (.rebuilt damage)
              | .error e => .error (.storage e)) ∧
      ∀ e final, ChangeFeed.listAll feed = (.error e, final) →
        (ix.verifyAndRepair feed now).result = .error (.feed e) ∧
        (ix.verifyAndRepair feed now).feed = final ∧
        (ix.verifyAndRepair feed now).indexer.store = ix.store ∧
        (ix.verifyAndRepair feed now).indexer.checkpoint = ix.checkpoint := by
  constructor
  · intro hcheck
    rw [verifyAndRepair, hcheck]
  · intro damage hcheck
    have hrepair : ix.verifyAndRepair feed now = { ix.rebuild feed now with
        result := (ix.rebuild feed now).result.map fun _ => .rebuilt damage } := by
      rw [verifyAndRepair, hcheck]
    rw [hrepair]
    dsimp only
    constructor
    · intro docs position final store hlist hlisting
      refine ⟨repaired_rebuild hexact hlist hlisting now, by rw [rebuild, bulkLoad, hlist], ?_⟩
      rw [rebuild_result ix hlist now]
      cases ix.storeAnew (ix.rebuild feed now).indexer.store.current now <;> rfl
    · intro e final hlist
      rw [rebuild, bulkLoad, hlist]
      exact ⟨rfl, rfl, rfl, rfl⟩

namespace Damaged

/-- Lists the ids of documents that have a content, and refuses the others. -/
def view : View where
  name := "ids"
  reducer := some .count
  map doc :=
    match doc.content with
    | .null => .refused "no content"
    | _ => .emitted [⟨[.text doc.id], .null⟩]

/-- An entry of a document that is not there any more, in a node that carries wrong numbers. -/
def store : IndexStore where
  name := view.name
  reducer := .count
  current := ⟨.node ⟨⟨⟨[0x10]⟩, "z", 0⟩, .null⟩ .nil .nil 7 3 (.count 5), ∅, 2, 9⟩
  byDoc := (∅ : Std.ExtTreeMap String (List EntryId)).insert "y" [⟨⟨[0x20]⟩, "y", 1⟩]

def indexer (checkpoint : Option Checkpoint) : Indexer :=
  { create view {} checkpoint with store, state := .rebuilding }

def documents : MemoryStore :=
  (((MemoryStore.empty 1 0).put "a" (.bool true)).1.put "b" .null).1

theorem check_eq (checkpoint : Option Checkpoint) :
    (indexer checkpoint).store.check = .error (.bookkeeping 0) :=
  rfl

theorem listing_documents : ChangeFeed.Listing documents documents documents.listAll.1
    documents.listAll.2 where
  wellFormed :=
    ((MemoryStore.wellFormed_empty 1 0).mutate (.put "a" (.bool true))).mutate (.put "b" .null)
  perm := .refl _
  position_eq := rfl
  partitions_eq := rfl
  tail_eq _ := rfl

/-- Nothing of the old entries is left, and a document that the map refuses has none. -/
theorem verifyAndRepair_spec_damaged :
    let repaired := (indexer none).verifyAndRepair documents 1
    let refused := (indexer none).verifyAndRepair
      ({ partitions := 1, epoch := 0, refusedLists := 1 } : RecordedFeed) 1
    (repaired.result = .ok (.rebuilt (.bookkeeping 0)) ∧
      repaired.indexer.store.check = .ok () ∧
      ["a", "b", "y", "z"].map repaired.indexer.store.keysOf = [[⟨[0x40, 0x61, 0, 0]⟩], [], [], []] ∧
      repaired.indexer.lag documents = 0 ∧ repaired.indexer.state = .catchingUp) ∧
    refused.result = .error (.feed (.refused "list refused")) ∧
      refused.indexer.store = store := by
  obtain ⟨-, hdamaged⟩ := verifyAndRepair_spec (indexer none) trivial documents 1
  obtain ⟨hrepair, -⟩ := hdamaged _ (check_eq none)
  obtain ⟨hrepaired, -, hresult⟩ := hrepair _ _ _ documents rfl listing_documents
  obtain ⟨-, hrefusing⟩ := verifyAndRepair_spec (indexer none) trivial
    ({ partitions := 1, epoch := 0, refusedLists := 1 } : RecordedFeed) 1
  obtain ⟨hrefused, -, hsame, -⟩ := (hrefusing _ (check_eq none)).2 _ _ rfl
  refine ⟨⟨hresult, hrepaired.refines.check, ?_, hrepaired.lag_eq, hrepaired.state_eq⟩,
    hrefused, hsame⟩
  simp only [List.map_cons, List.map_nil, hrepaired.refines.keysOf]
  decide +kernel

/-- A directory bears the name of the image. -/
def blocked : Checkpoint :=
  ⟨view.signature, 0, .ofDirectory
    (({ folders := [Storage.ImageFile.fileName] } : Directory).setContent Storage.Log.fileName
      Storage.Log.header) 0⟩

/-- The index is built anew, but what is returned is that nothing can be stored. -/
theorem not_rebuilt_blocked :
    (indexer (some blocked)).store.reducer = .count ∧
    (indexer (some blocked)).store.check = .error (.bookkeeping 0) ∧
    (∃ listing final, ChangeFeed.listAll documents = (.ok listing, final)) ∧
    ((indexer (some blocked)).verifyAndRepair documents 1).result
      = .error (.storage (.nameTaken "index.db")) :=
  ⟨rfl, check_eq _, ⟨_, _, rfl⟩, rfl⟩

end Damaged

end Indexer

end ViewIndex
