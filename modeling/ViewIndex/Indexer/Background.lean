import ViewIndex.Indexer.Basic

/-!
# Indexers in the background

An indexer that runs in the background starts, follows the feed and goes live once it has caught up;
what fails is tried again. `Indexer.run` does all of this that there is to do at a moment. When it
has been asked to stop, the indexer writes what is not in an image yet and ends.
-/

namespace ViewIndex.Indexer

variable {φ : Type} [ChangeFeed φ]

/-- Steps until nothing is left to read or the indexer is cancelled. A step that fails is
repeated. -/
def follow (now : Nat) : (fuel : Nat) → Indexer → φ → Indexer × φ
  | 0, ix, feed => (ix, feed)
  | fuel + 1, ix, feed =>
      if ix.cancelled then (ix, feed)
      else
        match ix.step feed now with
        | ⟨.ok 0, ix, feed⟩ => (ix, feed)
        | ⟨_, ix, feed⟩ => follow now fuel ix feed

/-- Goes live after catching up. An index that is not checked regularly is checked now; a repair
that fails is left for later. -/
def goLive (ix : Indexer) (feed : φ) (now : Nat) : Indexer × φ :=
  if ix.state = .catchingUp then
    if ix.config.verifyEveryBatches = 0 then
      let outcome := ix.verifyAndRepair feed now
      ({ outcome.indexer with state := .live }, outcome.feed)
    else ({ ix with state := .live }, feed)
  else (ix, feed)

/-- Ends a run: the batches since the last image go into a new one, if it can be written. -/
def finish (ix : Indexer) (now : Nat) : Indexer :=
  let ix := if ix.batchesSinceSnapshot = 0 then ix else (ix.writeImage now).2
  { ix with state := .stopped, running := false }

/-- Starts a new indexer; if that fails, following the feed goes on from nothing. -/
def ensureStarted (ix : Indexer) (feed : φ) (now : Nat) : Indexer × φ :=
  if ix.state = .idle then
    let outcome := ix.startUp feed now
    (outcome.indexer, outcome.feed)
  else (ix, feed)

/-- Does what there is to do in the background: a running indexer comes up to the end of the feed
and goes live, or ends if it is cancelled. -/
def run (ix : Indexer) (feed : φ) (now : Nat) : Indexer × φ :=
  if ix.running then
    let (ix, feed) := ix.ensureStarted feed now
    let (ix, feed) := follow now (ix.batchBound feed) ix feed
    if ix.cancelled then (ix.finish now, feed) else ix.goLive feed now
  else (ix, feed)

end ViewIndex.Indexer
