import ViewIndex.Storage.Checksum
import ViewIndex.Storage.Directory
import ViewIndex.Storage.Record
import ViewIndex.Text.Hex

/-!
# The batch log

Batches are appended to a log file, each in a frame with its length and checksum. Sealing puts the
current file aside under a numbered name and starts a new one; the numbers rise. Reading a file
stops at the first frame that is incomplete or damaged.
-/

namespace ViewIndex.Storage

namespace Log

/-- The file that batches are appended to. -/
def fileName : String := "batches.wal"

/-- What the names of sealed files begin with. -/
def sealPrefix : String := "batches.wal.seal-"

/-- The name of a sealed file. -/
def sealName (id : Nat) : String := sealPrefix ++ Text.hexFixed 16 id

/-- A plus sign may stand before digits. -/
def dropPlus : List Char → List Char
  | '+' :: digits => digits
  | digits => digits

/-- The number in the name of a sealed file, which has to fit 64 bits. -/
def sealId? (name : String) : Option Nat := do
  guard (sealPrefix.toList.isPrefixOf name.toList)
  let digits := dropPlus (name.toList.drop sealPrefix.length)
  guard (!digits.isEmpty)
  let id ← Text.hexNumber? digits 0
  guard (id < UInt64.size)
  return id

/-- The first bytes of every log file: a mark and a version. -/
def header : Bytes := Bytes.littleEndian 4 0x31575644 ++ Bytes.littleEndian 4 1

/-- A batch as it stands in a file: length, checksum and record. -/
def frame (batch : Batch) : Bytes :=
  let record := Binary.encodeBatch batch
  Bytes.littleEndian 4 record.length ++ Bytes.littleEndian 4 (recordSum record).toNat ++ record

/-- What is read from log files: the batches, and the number of records that were cut off or
damaged. -/
structure Contents where
  batches : List Batch := []
  truncated : Nat := 0
deriving DecidableEq

/-- Reads one frame. A record that is incomplete, does not match its checksum or is no batch is an
error; so few bytes that no frame begins are the regular end. -/
def readFrame (bytes : Bytes) : Option (Option (Batch × Bytes)) := do
  let (length, rest) ← Bytes.split? 4 bytes
  let (sum, rest) ← Bytes.split? 4 rest
  return do
    let (record, rest) ← Bytes.split? (Bytes.ofLittleEndian length) rest
    guard ((recordSum record).toNat = Bytes.ofLittleEndian sum)
    let batch ← Binary.run? Binary.decodeBatch record
    return (batch, rest)

/-- Reads frames up to the end or the first bad one. Every frame takes eight bytes or more. -/
def readFrames : (fuel : Nat) → Bytes → Contents
  | 0, _ => {}
  | fuel + 1, bytes =>
      match readFrame bytes with
      | none => {}
      | some none => { truncated := 1 }
      | some (some (batch, rest)) =>
          let later := readFrames fuel rest
          { later with batches := batch :: later.batches }

/-- The batches in a file. A file without a proper header holds none. -/
def readFile (content : Bytes) : Contents :=
  if header.isPrefixOf content then readFrames content.length (content.drop header.length) else {}

/-- The contents of one file after those of another. -/
def Contents.append (a b : Contents) : Contents :=
  ⟨a.batches ++ b.batches, a.truncated + b.truncated⟩

end Log

structure Log where
  directory : Directory
  /-- The number of the file that is open. It stays open when it is renamed or removed. -/
  handle : Nat
  /-- The number of the last seal since the log was opened. -/
  lastSeal : Nat := 0

/-- What is read back from a log. -/
structure Replay where
  batches : List Batch
  /-- The number of sealed files that were read. -/
  sealedUsed : Nat
  truncated : Nat
deriving DecidableEq

namespace Log

/-- The sealed files in ascending order of their numbers. -/
def sealedFiles (directory : Directory) : List (Nat × String) :=
  (directory.files.keys.filterMap fun name => (sealId? name).map fun id => (id, name)).mergeSort
    fun a b => a.1 ≤ b.1

/-- The log of a directory whose current file has just been opened. -/
def ofDirectory (directory : Directory) (lastSeal : Nat) : Log :=
  ⟨directory, directory.numberOf fileName, lastSeal⟩

/-- Opening starts a new file unless there is one with a proper header. -/
def openEffects (directory : Directory) : List FileEffect :=
  if (directory.content? fileName).any (header.isPrefixOf ·) then [] else [.write fileName header]

def openIn (directory : Directory) : Except StorageError Log :=
  match directory.run (openEffects directory) with
  | (.ok (), directory) => .ok (.ofDirectory directory 0)
  | (.error e, _) => .error e

/-- The length of a record stands in four bytes of its frame. -/
def checkRecord (batch : Batch) : Except StorageError Unit :=
  let size := (Binary.encodeBatch batch).length
  if size < UInt32.size then .ok () else .error (.recordTooLarge size)

/-- A record that is too large is not written. -/
def appendEffects (log : Log) (batch : Batch) : List FileEffect :=
  match checkRecord batch with
  | .ok () => [.append log.handle (frame batch)]
  | .error _ => []

/-- Appends a batch to the open file. Once this is done the batch is safe. -/
def append (log : Log) (batch : Batch) : Log :=
  { log with directory := (log.directory.run (log.appendEffects batch)).2 }

/-- The number of a seal: the time, but above all earlier numbers. -/
def nextSeal (log : Log) (now : Nat) : Nat := max now (log.lastSeal + 1)

/-- Sealing renames the current file, if it is there, and starts a new one. -/
def sealEffects (directory : Directory) (id : Nat) : List FileEffect :=
  (if directory.has fileName then [.rename fileName (sealName id)] else []) ++
    [.write fileName header]

/-- Seals the log at a time and returns the number of the seal. -/
def sealAt (log : Log) (now : Nat) : Except StorageError Nat × Log :=
  let id := log.nextSeal now
  match log.directory.run (sealEffects log.directory id) with
  | (.ok (), directory) => (.ok id, .ofDirectory directory id)
  | (.error e, directory) => (.error e, { log with directory })

/-- Removes the sealed files up to a number. Zero stands for no seal. -/
def cleanupEffects (directory : Directory) (upTo : Nat) : List FileEffect :=
  if upTo = 0 then []
  else ((sealedFiles directory).filter fun (id, _) => id ≤ upTo).map fun (_, name) => .remove name

/-- Cleaning up never fails, since it removes files only. -/
def cleanup (log : Log) (upTo : Nat) : Log :=
  { log with directory := (log.directory.run (cleanupEffects log.directory upTo)).2 }

/-- Removes all sealed files and empties the current one. -/
def resetEffects (directory : Directory) : List FileEffect :=
  ((sealedFiles directory).map fun (_, name) => .remove name) ++ [.write fileName header]

/-- Discards all batches. -/
def reset (log : Log) : Except StorageError Unit × Log :=
  match log.directory.run (resetEffects log.directory) with
  | (.ok (), directory) => (.ok (), .ofDirectory directory log.lastSeal)
  | (.error e, directory) => (.error e, { log with directory })

/-- Reads the sealed files with numbers above `after` in order, then the current file. -/
def replay (log : Log) (after : Nat) : Replay :=
  let newer := (sealedFiles log.directory).filter fun (id, _) => after < id
  let contents := (newer.map Prod.snd ++ [fileName]).map fun name =>
    readFile ((log.directory.content? name).getD [])
  let all := contents.foldl Contents.append {}
  ⟨all.batches, newer.length, all.truncated⟩

end Log

end ViewIndex.Storage
