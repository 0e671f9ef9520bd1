import ViewIndex.Indexer.Basic

/-!
# Statistics of a view

The size of a view, its place in the feed and what its indexer has counted, at one moment.
-/

namespace ViewIndex

structure ViewStats where
  view : String
  state : Lifecycle
  entries : Nat
  documents : Nat
  position : Position
  lag : Nat
  eventsApplied : Nat
  batches : Nat
  lastBatchSize : Nat
  mapErrors : Nat
  encodingErrors : Nat
  arityDrift : Nat
  rebuilds : Nat

def Indexer.stats {φ : Type} [ChangeFeed φ] (ix : Indexer) (feed : φ) : ViewStats where
  view := ix.view.name
  state := ix.state
  entries := ix.store.current.len
  documents := ix.store.current.docCount
  position := ix.position
  lag := ix.lag feed
  eventsApplied := ix.eventsApplied
  batches := ix.batches
  lastBatchSize := ix.lastBatchSize
  mapErrors := ix.tally.mapErrors
  encodingErrors := ix.tally.encodingErrors
  arityDrift := ix.tally.arityDrift
  rebuilds := ix.rebuilds

/-- A position as an object, partitions in ascending order. -/
def Position.toJson (position : Position) : Json :=
  .object (position.toList.map fun (partition, seq) => (toString partition, .nat seq))

def ViewStats.toJson (stats : ViewStats) : Json :=
  .object [("view", .text stats.view), ("state", .text stats.state.name),
    ("entries", .nat stats.entries), ("documents", .nat stats.documents),
    ("position", stats.position.toJson), ("lag", .nat stats.lag),
    ("events_applied", .nat stats.eventsApplied), ("batches", .nat stats.batches),
    ("last_batch_size", .nat stats.lastBatchSize), ("map_errors", .nat stats.mapErrors),
    ("encoding_errors", .nat stats.encodingErrors), ("arity_drift", .nat stats.arityDrift),
    ("rebuilds", .nat stats.rebuilds)]

end ViewIndex
