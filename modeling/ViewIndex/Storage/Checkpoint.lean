import ViewIndex.Storage.ImageFile
import ViewIndex.Storage.Log

/-!
# Checkpoints

The stored state of a view is an image and the batches logged since. Every batch is logged before it
is published; from time to time the log is sealed, an image is written and the sealed files that it
covers are removed. State of another view definition, of another feed, or from beyond the end of the
feed is not used.
-/

namespace ViewIndex.Storage

structure Checkpoint where
  signature : UInt64
  feedEpoch : UInt64
  log : Log

/-- The state of a view as it was recovered. -/
structure Recovered where
  position : Position
  docs : List DocUpdate
  /-- The number of logged batches that were applied to the image. -/
  replayed : Nat
  /-- The number of records at the ends of log files that could not be read. -/
  truncated : Nat
deriving DecidableEq

namespace Checkpoint

/-- Opens the stored state in a directory. -/
def openIn (directory : Directory) (signature feedEpoch : UInt64) :
    Except StorageError Checkpoint := do
  return ⟨signature, feedEpoch, ← Log.openIn directory⟩

def directory (checkpoint : Checkpoint) : Directory := checkpoint.log.directory

/-- The same stored state with its directory changed. -/
def withDirectory (checkpoint : Checkpoint) (directory : Directory) : Checkpoint :=
  { checkpoint with log := { checkpoint.log with directory } }

/-- Documents by id with their entries. -/
abbrev DocMap := Std.ExtTreeMap String DocUpdate

/-- Takes in the documents of an image. -/
def addImageDoc (docs : DocMap) (doc : StoredDoc) : Except StorageError DocMap :=
  match doc.toUpdate? with
  | some update => .ok (docs.insert update.docId update)
  | none => .error .unreadableValue

/-- Replaces one document; without entries it is dropped. -/
def addBatchDoc (docs : DocMap) (doc : StoredDoc) : Except StorageError DocMap :=
  match doc.toUpdate? with
  | some update =>
      .ok (if update.entries.isEmpty then docs.erase update.docId
        else docs.insert update.docId update)
  | none => .error .unreadableValue

/-- Applies logged batches in order. The position never falls back in any partition. -/
def applyBatches : DocMap × Position → List Batch → Except StorageError (DocMap × Position)
  | state, [] => .ok state
  | (docs, position), batch :: rest => do
      let docs ← batch.docs.foldlM addBatchDoc docs
      applyBatches (docs, position.merge batch.position) rest

/-- Whether a position lies beyond the end of a feed in some partition. -/
def isAhead (position tail : Position) : Bool :=
  position.toList.any fun (partition, seq) => tail.seq partition < seq

/-- Whether an image belongs to this view definition and this feed. -/
def fits (checkpoint : Checkpoint) (image : Image) : Bool :=
  image.signature == checkpoint.signature && image.feedEpoch == checkpoint.feedEpoch

/-- Discards all logged batches. -/
def resetLog (checkpoint : Checkpoint) : Except StorageError Unit × Checkpoint :=
  let (result, log) := checkpoint.log.reset
  (result, { checkpoint with log })

/-- The state of an image with the batches logged since. -/
def restore (checkpoint : Checkpoint) (image : Image) : Except StorageError Recovered := do
  let replay := checkpoint.log.replay image.sealId
  let docs ← image.docs.foldlM addImageDoc ∅
  let (docs, position) ← applyBatches (docs, image.position) replay.batches
  return ⟨position, docs.toList.map Prod.snd, replay.batches.length, replay.truncated⟩

/-- The state of an image with the batches logged since, unless the image is of no use here or the
state lies beyond the end of the feed. -/
def usable (checkpoint : Checkpoint) (image : Option Image) (tail : Position) :
    Except StorageError (Option Recovered) :=
  match image.filter checkpoint.fits with
  | none => .ok none
  | some image => do
      let recovered ← checkpoint.restore image
      return if isAhead recovered.position tail then none else some recovered

/-- The state that the image and the log give. If there is none that can be used, the log is
discarded; what cannot be read is left as it is. -/
def recover (checkpoint : Checkpoint) (tail : Position) :
    Except StorageError (Option Recovered) × Checkpoint :=
  match (ImageFile.load checkpoint.directory).bind (checkpoint.usable · tail) with
  | .ok (some recovered) => (.ok (some recovered), checkpoint)
  | .ok none =>
      let (result, checkpoint) := checkpoint.resetLog
      (result.map fun _ => none, checkpoint)
  | .error e => (.error e, checkpoint)

def batchOf (position : Position) (updates : List DocUpdate) : Batch :=
  ⟨position, updates.map StoredDoc.ofUpdate⟩

def checkBatch (position : Position) (updates : List DocUpdate) : Except StorageError Unit :=
  Log.checkRecord (batchOf position updates)

def recordBatch (checkpoint : Checkpoint) (position : Position) (updates : List DocUpdate) :
    Checkpoint :=
  { checkpoint with log := checkpoint.log.append (batchOf position updates) }

/-- Adds an entry to those of its document. -/
def collect (docs : Std.ExtTreeMap String (List Entry)) (entry : Entry) :
    Std.ExtTreeMap String (List Entry) :=
  docs.insert entry.id.docId (entry :: docs.getD entry.id.docId [])

/-- The documents of a snapshot in ascending order of their ids, with their entries in the order of
the ordinals. -/
def storedDocs (snapshot : Snapshot) : List StoredDoc :=
  (snapshot.entries.foldl collect ∅).toList.map fun (docId, entries) =>
    let ordered := entries.reverse.mergeSort fun a b => a.id.ordinal ≤ b.id.ordinal
    ⟨docId, ordered.map fun entry => (entry.id.key, entry.value.compact)⟩

/-- The image of a snapshot behind a seal. -/
def imageOf (checkpoint : Checkpoint) (snapshot : Snapshot) (sealId : Nat) : Image where
  signature := checkpoint.signature
  feedEpoch := checkpoint.feedEpoch
  sealId := sealId
  position := snapshot.position
  docs := storedDocs snapshot

/-- Writes the image of a snapshot at a time: seals the log first, then saves the image, and at last
removes the sealed files that the image covers. When saving fails, the log stays sealed. -/
def writeSnapshot (checkpoint : Checkpoint) (snapshot : Snapshot) (now : Nat) :
    Except StorageError Unit × Checkpoint :=
  match checkpoint.log.sealAt now with
  | (.error e, log) => (.error e, { checkpoint with log })
  | (.ok id, log) =>
      match ImageFile.save log.directory (checkpoint.imageOf snapshot id) with
      | (.error e, directory) => (.error e, { checkpoint with log := { log with directory } })
      | (.ok (), directory) =>
          (.ok (), { checkpoint with log := { log with directory }.cleanup id })

/-- Discarding everything removes the image first. -/
def removeImageEffects (directory : Directory) : List FileEffect :=
  if directory.has ImageFile.fileName then [.remove ImageFile.fileName] else []

/-- Discards all stored state: the image, then the logged batches. -/
def reset (checkpoint : Checkpoint) : Except StorageError Unit × Checkpoint :=
  match checkpoint.directory.run (removeImageEffects checkpoint.directory) with
  | (.error e, directory) => (.error e, checkpoint.withDirectory directory)
  | (.ok (), directory) => (checkpoint.withDirectory directory).resetLog

end Checkpoint

end ViewIndex.Storage
