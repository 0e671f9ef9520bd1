import ViewIndex.Config.Basic
import ViewIndex.Toml.Contents

/-!
# Reading settings

Settings are read from a settings file. Names that mean nothing here are ignored, wherever they
stand; a setting of the wrong kind or out of range makes the file unusable.
-/

namespace ViewIndex.Config

/-- Reads a setting; without a value there is the default. -/
def setting {α : Type} (file : Toml.Contents) (name : String)
    (read : Toml.Scalar → Option α) (default : α) : Option α :=
  if file.isTable name then none
  else
    match file.value? name with
    | some value => read value
    | none => some default

/-- A count that is less than `bound`. -/
def count? (bound : Nat) : Toml.Scalar → Option Nat
  | .integer i => if 0 ≤ i ∧ i < bound then some i.toNat else none
  | _ => none

def directory? : Toml.Scalar → Option (Option String)
  | .text name => some (some name)
  | _ => none

def ofContents? (file : Toml.Contents) : Option Config := do
  let default : Config := {}
  let count (name : String) (bound default : Nat) := setting file name (count? bound) default
  return {
    batchSize := ← count "batch_size" UInt64.size default.batchSize
    pollIntervalMs := ← count "poll_interval_ms" UInt64.size default.pollIntervalMs
    staleThreshold := ← count "stale_threshold" UInt64.size default.staleThreshold
    snapshotEveryBatches :=
      ← count "snapshot_every_batches" UInt64.size default.snapshotEveryBatches
    verifyEveryBatches := ← count "verify_every_batches" UInt64.size default.verifyEveryBatches
    stateDir := ← setting file "state_dir" directory? default.stateDir
    partitions := ← count "partitions" UInt32.size default.partitions
    reportIntervalSecs := ← count "report_interval_secs" UInt64.size default.reportIntervalSecs }

def ofText? (text : String) : Option Config := Toml.Contents.ofText? text >>= ofContents?

end ViewIndex.Config
