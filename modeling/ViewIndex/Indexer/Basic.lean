import ViewIndex.Config.Basic
import ViewIndex.Feed.Basic
import ViewIndex.Indexer.Evaluate
import ViewIndex.Storage.Checkpoint

/-!
# Indexers

An indexer keeps the index of one view current. It starts from stored state or from all documents,
then reads the feed in batches; each batch is logged, published as one step and counted. What an
operation changes besides its result is the indexer and the state of the feed, also when it fails.
-/

namespace ViewIndex

/-- The stages in the life of an indexer. -/
inductive Lifecycle where
  | idle
  | catchingUp
  | live
  | rebuilding
  | stopped
deriving DecidableEq, Repr

def Lifecycle.name : Lifecycle → String
  | .idle => "Idle"
  | .catchingUp => "CatchingUp"
  | .live => "Live"
  | .rebuilding => "Rebuilding"
  | .stopped => "Stopped"

/-- The writer of one view. -/
structure Indexer where
  view : View
  config : Config
  store : IndexStore
  /-- The stored state, if the view is stored at all. -/
  checkpoint : Option Storage.Checkpoint
  state : Lifecycle := .idle
  tally : Tally := {}
  eventsApplied : Nat := 0
  batches : Nat := 0
  lastBatchSize : Nat := 0
  rebuilds : Nat := 0
  /-- The number of batches since the last image. -/
  batchesSinceSnapshot : Nat := 0
  cancelled : Bool := false
  /-- Whether the indexer follows the feed in the background. -/
  running : Bool := false

inductive IndexerError where
  | feed (cause : FeedError)
  | storage (cause : StorageError)
deriving DecidableEq, Repr

/-- What an operation of an indexer leaves behind. -/
structure Outcome (φ α : Type) where
  result : Except IndexerError α
  indexer : Indexer
  feed : φ

/-- What a check of the index came to. -/
inductive VerifyOutcome where
  | healthy
  /-- The index was damaged and has been built anew. -/
  | rebuilt (damage : StructureError)
deriving DecidableEq, Repr

namespace Indexer

open Storage (Checkpoint)

variable {φ : Type} [ChangeFeed φ]

/-- A new indexer with an empty index. -/
def create (view : View) (config : Config) (checkpoint : Option Checkpoint) : Indexer where
  view := view
  config := config
  store := .empty view.name view.reducer
  checkpoint := checkpoint

def position (ix : Indexer) : Position := ix.store.position

/-- How many events the index is behind the feed. -/
def lag (ix : Indexer) (feed : φ) : Nat := (ChangeFeed.tailPosition feed).lag ix.position

def stop (ix : Indexer) : Indexer := { ix with cancelled := true }

/-- Writes an image of the published state at a time, if the view is stored. -/
def writeImage (ix : Indexer) (now : Nat) : Except StorageError Unit × Indexer :=
  match ix.checkpoint with
  | none => (.ok (), ix)
  | some checkpoint =>
      match checkpoint.writeSnapshot ix.store.current now with
      | (.ok (), checkpoint) =>
          (.ok (), { ix with checkpoint := some checkpoint, batchesSinceSnapshot := 0 })
      | (.error e, checkpoint) => (.error e, { ix with checkpoint := some checkpoint })

/-- Discards what is stored of the view, if it is stored. -/
def discardStored (ix : Indexer) : Except StorageError Unit × Indexer :=
  match ix.checkpoint with
  | none => (.ok (), ix)
  | some checkpoint =>
      let (result, checkpoint) := checkpoint.reset
      (result, { ix with checkpoint := some checkpoint })

/-! ## Starting -/

/-- Takes over stored state, if there is any that can be used. When batches had to be read from the
log, or some could not be, a new image takes their place; that this fails is an error. -/
def recover (ix : Indexer) (tail : Position) (now : Nat) : Except StorageError Bool × Indexer :=
  match ix.checkpoint with
  | none => (.ok false, ix)
  | some checkpoint =>
      match checkpoint.recover tail with
      | (.ok (some recovered), checkpoint) =>
          let store := ix.store.replaceAll recovered.docs recovered.position
          if 0 < recovered.replayed || 0 < recovered.truncated then
            let (result, checkpoint) := checkpoint.writeSnapshot store.current now
            (result.map fun _ => true, { ix with store, checkpoint := some checkpoint })
          else (.ok true, { ix with store, checkpoint := some checkpoint })
      | (_, checkpoint) => (.ok false, { ix with checkpoint := some checkpoint })

/-- Replaces the index by the entries of the given documents, then the stored state with it. -/
def load (ix : Indexer) (docs : List Document) (position : Position) (now : Nat) :
    Except StorageError Unit × Indexer :=
  let (tally, updates) := View.collectUpdates ix.view.evaluate ix.tally docs
  match { ix with tally, store := ix.store.replaceAll updates position }.discardStored with
  | (.ok (), ix) => ix.writeImage now
  | (.error e, ix) => (.error e, ix)

/-- Builds the index from all documents of the feed. -/
def bulkLoad (ix : Indexer) (feed : φ) (now : Nat) : Outcome φ Unit :=
  match ChangeFeed.listAll feed with
  | (.ok (docs, position), feed) =>
      let (result, ix) := ix.load docs position now
      ⟨result.mapError .storage, ix, feed⟩
  | (.error e, feed) => ⟨.error (.feed e), ix, feed⟩

/-- Starts from stored state, or from all documents if there is none. -/
def startUp (ix : Indexer) (feed : φ) (now : Nat) : Outcome φ Unit :=
  let ix := { ix with state := .catchingUp }
  match ix.recover (ChangeFeed.tailPosition feed) now with
  | (.ok true, ix) => ⟨.ok (), ix, feed⟩
  | (.ok false, ix) => ix.bulkLoad feed now
  | (.error e, ix) => ⟨.error (.storage e), ix, feed⟩

/-- The stage after a rebuild that interrupted another stage. -/
def stateAfterRebuild : Lifecycle → Lifecycle
  | .rebuilding | .idle => .catchingUp
  | other => other

/-- Discards the index and builds it anew. -/
def rebuild (ix : Indexer) (feed : φ) (now : Nat) : Outcome φ Unit :=
  let before := ix.state
  let outcome := { ix with state := .rebuilding, rebuilds := ix.rebuilds + 1 }.bulkLoad feed now
  { outcome with indexer := { outcome.indexer with state := stateAfterRebuild before } }

/-- Checks the index and rebuilds it if it is damaged. -/
def verifyAndRepair (ix : Indexer) (feed : φ) (now : Nat) : Outcome φ VerifyOutcome :=
  match ix.store.check with
  | .ok () => ⟨.ok .healthy, ix, feed⟩
  | .error damage =>
      let outcome := ix.rebuild feed now
      { outcome with result := outcome.result.map fun _ => .rebuilt damage }

/-! ## Following the feed -/

/-- Events of several partitions and the position behind them, or the reason why there are none. -/
abbrev Reading := Except FeedError (List ChangeEvent × Position)

/-- Reads at most `limit` events behind a position from each of the given partitions. Also returns
`next` with the numbers of the last events read. -/
def readPartitions (position : Position) (limit : Nat) :
    (partitions : List Nat) → (next : Position) → φ → Reading × φ
  | [], next, feed => (.ok ([], next), feed)
  | partition :: rest, next, feed =>
      match ChangeFeed.read feed partition (position.seq partition) limit with
      | (.error e, feed) => (.error e, feed)
      | (.ok events, feed) =>
          let next := match events.getLast? with
            | some last => next.insert partition last.seq
            | none => next
          match readPartitions position limit rest next feed with
          | (.error e, feed) => (.error e, feed)
          | (.ok (later, next), feed) => (.ok (events ++ later, next), feed)

/-- Reads the next batch of events, partition by partition. -/
def readBatch (ix : Indexer) (feed : φ) : Reading × φ :=
  readPartitions ix.position ix.config.batchSize (List.range (ChangeFeed.partitions feed))
    ix.position feed

/-- Whether updates can be logged, if the view is stored. -/
def checkBatch (ix : Indexer) (updates : List DocUpdate) (position : Position) :
    Except StorageError Unit :=
  if ix.checkpoint.isNone then .ok () else Checkpoint.checkBatch position updates

/-- Logs updates, publishes them, and writes an image if it is time to. Updates that cannot be
logged are not published either; an image that cannot be written stays due. -/
def commit (ix : Indexer) (updates : List DocUpdate) (position : Position) (now : Nat) :
    Except StorageError Unit × Indexer :=
  match ix.checkBatch updates position with
  | .error e => (.error e, ix)
  | .ok () =>
      let checkpoint := ix.checkpoint.map fun checkpoint => checkpoint.recordBatch position updates
      let store := (ix.store.applyBatch updates (some position)).1
      let ix := { ix with checkpoint, store }
      if checkpoint.isNone then (.ok (), ix)
      else
        let ix := { ix with batchesSinceSnapshot := ix.batchesSinceSnapshot + 1 }
        if max ix.config.snapshotEveryBatches 1 ≤ ix.batchesSinceSnapshot then ix.writeImage now
        else (.ok (), ix)

/-- Applies a batch of events. A batch after which storing fails is applied but not counted. -/
def applyEvents (ix : Indexer) (events : List ChangeEvent) (position : Position) (now : Nat) :
    Except StorageError Unit × Indexer :=
  let (tally, updates) := View.collectUpdates ix.view.evaluateEvent ix.tally events
  match { ix with tally }.commit updates position now with
  | (.error e, ix) => (.error e, ix)
  | (.ok (), ix) =>
      (.ok (), { ix with
        eventsApplied := ix.eventsApplied + events.length
        batches := ix.batches + 1
        lastBatchSize := events.length })

/-- Whether the index is due for a check after the current number of batches. -/
def checkDue (ix : Indexer) : Bool :=
  0 < ix.config.verifyEveryBatches && ix.batches % ix.config.verifyEveryBatches == 0

/-- Reads and applies one batch, and returns the number of its events; zero means that there was
nothing to read. -/
def step (ix : Indexer) (feed : φ) (now : Nat) : Outcome φ Nat :=
  match ix.readBatch feed with
  | (.error e, feed) => ⟨.error (.feed e), ix, feed⟩
  | (.ok (events, position), feed) =>
      if events.isEmpty then ⟨.ok 0, ix, feed⟩
      else
        match ix.applyEvents events position now with
        | (.error e, ix) => ⟨.error (.storage e), ix, feed⟩
        | (.ok (), ix) =>
            if ix.checkDue then
              let outcome := ix.verifyAndRepair feed now
              { outcome with result := outcome.result.map fun _ => events.length }
            else ⟨.ok events.length, ix, feed⟩

/-- Steps until nothing is left to read, a step fails, or the indexer is cancelled. -/
def stepAll (now : Nat) : (fuel : Nat) → Indexer → φ → Outcome φ Unit
  | 0, ix, feed => ⟨.ok (), ix, feed⟩
  | fuel + 1, ix, feed =>
      if ix.cancelled then ⟨.ok (), ix, feed⟩
      else
        match ix.step feed now with
        | ⟨.error e, ix, feed⟩ => ⟨.error e, ix, feed⟩
        | ⟨.ok 0, ix, feed⟩ => ⟨.ok (), ix, feed⟩
        | ⟨.ok (_ + 1), ix, feed⟩ => stepAll now fuel ix feed

/-- A bound on the number of batches. Following a feed whose events are numbered in order takes at
most as many batches as the index is behind; the surplus is for feeds that are out of order, where
each batch still raises a number of 64 bits. -/
def batchBound (ix : Indexer) (feed : φ) : Nat := ix.lag feed + UInt64.size

/-- Follows the feed to its end, starting first if need be. -/
def catchUp (ix : Indexer) (feed : φ) (now : Nat) : Outcome φ Unit :=
  let started : Outcome φ Unit :=
    if ix.state = .idle then ix.startUp feed now else ⟨.ok (), ix, feed⟩
  match started with
  | ⟨.error e, ix, feed⟩ => ⟨.error e, ix, feed⟩
  | ⟨.ok (), ix, feed⟩ => stepAll now (ix.batchBound feed) ix feed

end Indexer

end ViewIndex
