import ViewIndex.Json.Basic

/-!
# Settings

The settings of an engine. Everything has a default, so a configuration names only what differs.
-/

namespace ViewIndex

structure Config where
  /-- The most events that are read from one partition for a batch. -/
  batchSize : Nat := 256
  /-- How long to wait for new events before looking again. -/
  pollIntervalMs : Nat := 250
  /-- Results are stale when the view is more than this many events behind. -/
  staleThreshold : Nat := 1000
  /-- An image is written after this many batches. -/
  snapshotEveryBatches : Nat := 64
  /-- The index is checked after this many batches; zero stands for once, after catching up. -/
  verifyEveryBatches : Nat := 0
  /-- Where views are stored; without it they are kept in memory only. -/
  stateDir : Option String := none
  /-- The number of partitions of a document store in memory. -/
  partitions : Nat := 1
  /-- How often to report; zero stands for never. -/
  reportIntervalSecs : Nat := 0
deriving DecidableEq, Repr

namespace Config

/-- The time between two looks for new events, at least one millisecond. -/
def pollMs (config : Config) : Nat := max config.pollIntervalMs 1

/-- A name below a directory. A name that starts at the root stands for itself. -/
def joinPath (directory name : String) : String :=
  if name.startsWith "/" || directory.isEmpty then name
  else if directory.endsWith "/" then directory ++ name
  else directory ++ "/" ++ name

def viewDir (config : Config) (view : String) : Option String :=
  config.stateDir.map fun directory => joinPath directory view

def toJson (config : Config) : Json :=
  .object [("batch_size", .nat config.batchSize), ("poll_interval_ms", .nat config.pollIntervalMs),
    ("stale_threshold", .nat config.staleThreshold),
    ("snapshot_every_batches", .nat config.snapshotEveryBatches),
    ("verify_every_batches", .nat config.verifyEveryBatches),
    ("state_dir", (config.stateDir.map .text).getD .null),
    ("partitions", .nat config.partitions),
    ("report_interval_secs", .nat config.reportIntervalSecs)]

end Config

end ViewIndex
