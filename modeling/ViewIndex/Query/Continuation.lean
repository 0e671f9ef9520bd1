import ViewIndex.Entry

/-!
# Cuts as JSON

A page that was cut short comes with the cut from which to go on, and the next query hands it back.
A cut is written as its name, or as an object whose one member holds the place, with the key as an
array of bytes.
-/

namespace ViewIndex

def Bytes.toJson (bytes : Bytes) : Json := .array (bytes.map fun b => .nat b.toNat)

/-- The bytes that an array of numbers from 0 to 255 holds. -/
def Bytes.ofJson? (value : Json) : Option Bytes := do
  (← value.asArray?).mapM fun item => do
    let n ← item.asNat?
    guard (n < 256)
    return UInt8.ofNat n

/-- Ordinals are written in 32 bits; this is the greatest. -/
def EntryId.lastOrdinal : Nat := UInt32.size - 1

namespace EntryId

def toJson (id : EntryId) : Json :=
  .object [("key", id.key.bytes.toJson), ("doc_id", .text id.docId), ("ordinal", .nat id.ordinal)]

/-- The identity of an entry from its three parts. -/
def ofParts? (key docId ordinal : Json) : Option EntryId := do
  let bytes ← Bytes.ofJson? key
  let docId ← docId.asText?
  let ordinal ← ordinal.asNat?
  guard (ordinal ≤ lastOrdinal)
  return ⟨⟨bytes⟩, docId, ordinal⟩

/-- Reads an identity from an object, or from an array of its parts. -/
def ofJson? : Json → Option EntryId
  | .array [key, docId, ordinal] => ofParts? key docId ordinal
  | .array _ => none
  | value => do ofParts? (← value.field? "key") (← value.field? "doc_id") (← value.field? "ordinal")

end EntryId

namespace Cut

/-- The written form of a cut. The place behind a document is the one behind its last possible
entry. -/
def toJson : Cut → Json
  | .start => .text "Start"
  | .finish => .text "End"
  | .beforeKey key => .object [("BeforeKey", key.bytes.toJson)]
  | .afterKey key => .object [("AfterKey", key.bytes.toJson)]
  | .beforeEntry id => .object [("BeforeEntry", id.toJson)]
  | .afterEntry id => .object [("AfterEntry", id.toJson)]
  | .afterDoc key docId =>
      .object [("AfterEntry", EntryId.toJson ⟨key, docId, EntryId.lastOrdinal⟩)]

/-- The cut of a name and a place. -/
def ofMember? (name : String) (place : Json) : Option Cut :=
  match name with
  | "Start" => if place.isNull then some .start else none
  | "End" => if place.isNull then some .finish else none
  | "BeforeKey" => (Bytes.ofJson? place).map fun bytes => .beforeKey ⟨bytes⟩
  | "AfterKey" => (Bytes.ofJson? place).map fun bytes => .afterKey ⟨bytes⟩
  | "BeforeEntry" => (EntryId.ofJson? place).map .beforeEntry
  | "AfterEntry" => (EntryId.ofJson? place).map .afterEntry
  | _ => none

/-- Reads a cut. The two ends may also be written as members that hold null. -/
def ofJson? : Json → Option Cut
  | .text name => if name = "Start" ∨ name = "End" then ofMember? name .null else none
  | .object [(name, place)] => ofMember? name place
  | _ => none

end Cut

end ViewIndex
