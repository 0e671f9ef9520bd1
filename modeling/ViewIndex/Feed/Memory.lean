import ViewIndex.Bytes
import ViewIndex.Feed.Basic
import ViewIndex.Hash.XXH3
import ViewIndex.Json.Printer

/-!
# Document stores in memory

`MemoryStore` keeps documents and the log of their changes: each document belongs to the partition
that its id hashes to, and every write appends an event there.
-/

namespace ViewIndex

/-- The number before the first dash of a revision; zero if there is no such number. -/
def Revision.generation (revision : String) : Nat :=
  let digits := revision.toList.takeWhile (· ≠ '-')
  if '-' ∈ revision.toList ∧ digits.all Char.isDigit then
    digits.foldl (fun n c => 10 * n + (c.toNat - '0'.toNat)) 0
  else 0

/-- Documents in memory with the log of their changes. -/
structure MemoryStore where
  partitions : Nat
  epoch : UInt64
  docs : Std.ExtTreeMap String Document := ∅
  /-- The events of each partition, the first one numbered 1. -/
  logs : Array (Array ChangeEvent)

namespace MemoryStore

/-- An empty store of at least one partition. Stores of the same number of partitions and the same
epoch have the same identity. -/
def empty (partitions : Nat) (epoch : UInt64) : MemoryStore :=
  let partitions := max partitions 1
  { partitions
    epoch := XXH3.hashSeeded (UInt64.ofNat partitions) ⟨(Bytes.littleEndian 8 epoch.toNat).toArray⟩
    logs := Array.replicate partitions #[] }

def partitionOf (store : MemoryStore) (docId : String) : Nat :=
  (XXH3.hash docId.toByteArray).toNat % store.partitions

def log (store : MemoryStore) (partition : Nat) : Array ChangeEvent :=
  store.logs.getD partition #[]

def get? (store : MemoryStore) (docId : String) : Option Document := store.docs[docId]?

def len (store : MemoryStore) : Nat := store.docs.size

/-- Appends an event to the log of the document's partition. -/
def append (store : MemoryStore) (docId revision : String) (change : Change) : MemoryStore :=
  let partition := store.partitionOf docId
  let event := ⟨partition, (store.log partition).size + 1, docId, revision, change⟩
  { store with logs := store.logs.modify partition (·.push event) }

/-- The generation that follows the current revision of a document. -/
def nextGeneration (store : MemoryStore) (docId : String) : Nat :=
  ((store.get? docId).map fun doc => Revision.generation doc.revision).getD 0 + 1

/-- Creates or changes a document. The new revision consists of the generation and the hash of the
content. -/
def put (store : MemoryStore) (docId : String) (content : Json) : MemoryStore × String :=
  let hash := Text.hexFixed 16 (XXH3.hash content.compact.toByteArray).toNat
  let revision := s!"{store.nextGeneration docId}-{hash}"
  let store := { store with docs := store.docs.insert docId ⟨docId, revision, content⟩ }
  (store.append docId revision (.upsert content), revision)

/-- Deletes a document. Without such a document nothing happens. -/
def delete (store : MemoryStore) (docId : String) : MemoryStore × Option String :=
  match store.get? docId with
  | none => (store, none)
  | some _ =>
      let revision := s!"{store.nextGeneration docId}-deleted"
      let store := { store with docs := store.docs.erase docId }
      (store.append docId revision .delete, some revision)

/-- At most `limit` events of a partition whose numbers are above `after`. -/
def read (store : MemoryStore) (partition after limit : Nat) :
    Except FeedError (List ChangeEvent) :=
  match store.logs[partition]? with
  | some events => .ok (events.extract after (after + limit)).toList
  | none => .error (.unknownPartition partition)

/-- The number of the last event of a partition. -/
def tail (store : MemoryStore) (partition : Nat) : Nat := (store.log partition).size

/-- The documents in ascending order of their ids, and the position behind every event. -/
def listAll (store : MemoryStore) : List Document × Position :=
  (store.docs.toList.map Prod.snd,
    .ofList (store.logs.mapIdx fun partition events => (partition, events.size)).toList)

instance : ChangeFeed MemoryStore where
  partitions := partitions
  epoch := epoch
  read store partition after limit := (store.read partition after limit, store)
  tail := tail
  listAll store := (.ok store.listAll, store)

end MemoryStore

end ViewIndex
