import ViewIndex.Json.Parser
import ViewIndex.Store.Basic

/-!
# Stored records

What a view stores are the entries of documents, with the values as JSON text, and positions. A
batch lists the documents that it replaced; an image lists all of them. The binary form has
little-endian numbers of fixed width, and every list is preceded by its length in eight bytes.
-/

namespace ViewIndex.Storage

/-- The entries of one document as they are stored. -/
structure StoredDoc where
  docId : String
  entries : List (EncodedKey × String)
deriving DecidableEq, Repr

namespace StoredDoc

def ofUpdate (update : DocUpdate) : StoredDoc :=
  ⟨update.docId, update.entries.map fun (key, value) => (key, value.compact)⟩

/-- The entries with their values read; there are none if some value is not JSON. -/
def toUpdate? (doc : StoredDoc) : Option DocUpdate := do
  let entries ← doc.entries.mapM fun (key, text) => do return (key, ← Json.parse? text)
  return ⟨doc.docId, entries⟩

end StoredDoc

/-- A batch that was applied: the documents that it replaced and the position behind it. -/
structure Batch where
  position : Position
  docs : List StoredDoc
deriving DecidableEq

/-- The whole state of a view. -/
structure Image where
  signature : UInt64
  feedEpoch : UInt64
  /-- The log segments up to this one are contained in the image. -/
  sealId : Nat
  position : Position
  docs : List StoredDoc
deriving DecidableEq

def Image.entryCount (image : Image) : Nat := (image.docs.map (·.entries.length)).foldr (· + ·) 0

/-! ## Writing -/

namespace Binary

def encodeNat (width n : Nat) : Bytes := Bytes.littleEndian width n

/-- A list after its length. -/
def encodeList {α : Type} (item : α → Bytes) (items : List α) : Bytes :=
  encodeNat 8 items.length ++ items.flatMap item

def encodeBytes (bytes : Bytes) : Bytes := encodeNat 8 bytes.length ++ bytes

def encodeText (s : String) : Bytes := encodeBytes (Bytes.ofText s)

/-- A partition and its number. -/
def encodeSeq (item : Nat × Nat) : Bytes := encodeNat 4 item.1 ++ encodeNat 8 item.2

def encodePosition (position : Position) : Bytes := encodeList encodeSeq position.toList

/-- A key and the text of its value. -/
def encodeEntry (entry : EncodedKey × String) : Bytes :=
  encodeBytes entry.1.bytes ++ encodeText entry.2

def encodeDoc (doc : StoredDoc) : Bytes :=
  encodeText doc.docId ++ encodeList encodeEntry doc.entries

def encodeBatch (batch : Batch) : Bytes :=
  encodePosition batch.position ++ encodeList encodeDoc batch.docs

/-- The parts of an image in the order in which they are written. -/
def imagePieces (image : Image) : List Bytes :=
  [encodeNat 8 image.signature.toNat, encodeNat 8 image.feedEpoch.toNat, encodeNat 8 image.sealId,
    encodePosition image.position, encodeNat 8 image.docs.length] ++ image.docs.map encodeDoc

def encodeImage (image : Image) : Bytes := (imagePieces image).flatten

/-! ## Reading -/

/-- Takes a value off the start of a byte string. Bytes that are left over at the end are no
fault. -/
abbrev Decoder (α : Type) := StateT Bytes Option α

/-- The next `n` bytes. -/
def take (n : Nat) : Decoder Bytes := fun bytes => Bytes.split? n bytes

def decodeNat (width : Nat) : Decoder Nat := do return Bytes.ofLittleEndian (← take width)

/-- A value several times over. -/
def times {α : Type} (item : Decoder α) : (n : Nat) → Decoder (List α)
  | 0 => return []
  | n + 1 => do
      let first ← item
      let others ← times item n
      return first :: others

def decodeList {α : Type} (item : Decoder α) : Decoder (List α) := do times item (← decodeNat 8)

def decodeBytes : Decoder Bytes := do take (← decodeNat 8)

def decodeText : Decoder String := do
  let bytes ← decodeBytes
  liftM (Bytes.toText? bytes)

def decodeSeq : Decoder (Nat × Nat) := do
  let partition ← decodeNat 4
  let seq ← decodeNat 8
  return (partition, seq)

/-- Of several numbers for one partition the last counts. -/
def decodePosition : Decoder Position := do
  let seqs ← decodeList decodeSeq
  return .ofList seqs

def decodeEntry : Decoder (EncodedKey × String) := do
  let key ← decodeBytes
  let text ← decodeText
  return (⟨key⟩, text)

def decodeDoc : Decoder StoredDoc := do
  let docId ← decodeText
  let entries ← decodeList decodeEntry
  return ⟨docId, entries⟩

def decodeBatch : Decoder Batch := do
  let position ← decodePosition
  let docs ← decodeList decodeDoc
  return ⟨position, docs⟩

def decodeImage : Decoder Image := do
  let signature ← decodeNat 8
  let feedEpoch ← decodeNat 8
  let sealId ← decodeNat 8
  let position ← decodePosition
  let docs ← decodeList decodeDoc
  return ⟨UInt64.ofNat signature, UInt64.ofNat feedEpoch, sealId, position, docs⟩

def run? {α : Type} (decoder : Decoder α) (bytes : Bytes) : Option α :=
  (decoder bytes).map Prod.fst

end Binary

end ViewIndex.Storage
