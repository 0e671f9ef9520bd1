import ViewIndex.Document
import ViewIndex.Hash.XXH3
import ViewIndex.Key.Encoding
import ViewIndex.Reducer
import ViewIndex.Text.Quoted

/-!
# View definitions

A view maps every document of its type to emissions, pairs of a key and a value, and may have a
reducer. A map may refuse a document or crash on it; either way the document counts as failed. The
signature of a definition tells whether stored state belongs to it.
-/

namespace ViewIndex

/-- One entry that a map asks for. -/
structure Emission where
  key : List Json
  value : Json
deriving DecidableEq, Repr

/-- The encoded key of an emission. A component that cannot be ordered makes the emission
unusable. -/
def Emission.encodeKey (emission : Emission) : Except KeyError EncodedKey :=
  KeyPart.ofJsonItems emission.key >>= Key.encode

/-- What a map makes of a document. -/
inductive MapOutcome where
  | emitted (emissions : List Emission)
  /-- The map turns the document down for a reason. -/
  | refused (reason : String)
  /-- The map breaks off, possibly with a message. -/
  | crashed (message : Option String)

structure MapError where
  view : String
  docId : String
  reason : String
deriving DecidableEq, Repr

def MapError.message (e : MapError) : String :=
  s!"map of view '{e.view}' failed on document '{e.docId}': {e.reason}"

structure View where
  name : String
  /-- Only documents of this type are mapped; without one, all are. -/
  docType : Option String := none
  /-- Changed whenever the map changes. -/
  version : String := "1"
  reducer : Option Reducer := none
  map : Document → MapOutcome

namespace View

/-- Whether the map is asked about a document. -/
def appliesTo (view : View) (doc : Document) : Bool :=
  match view.docType with
  | some docType => doc.docType? == some docType
  | none => true

/-- The emissions for a document; a document of another type has none. -/
def emissions (view : View) (doc : Document) : Except MapError (List Emission) :=
  if view.appliesTo doc then
    match view.map doc with
    | .emitted emissions => .ok emissions
    | .refused reason => .error ⟨view.name, doc.id, reason⟩
    | .crashed message =>
        .error ⟨view.name, doc.id, message.getD "map function panicked"⟩
  else .ok []

/-- The bytes that identify a definition: name, document type, name of the reducer and version, each
followed by a zero. What is missing counts as empty. -/
def signatureBytes (view : View) : Bytes :=
  [view.name, view.docType.getD "", (view.reducer.map Reducer.name).getD "", view.version].flatMap
    fun part => Bytes.ofText part ++ [0]

/-- A hash of the definition. Stored state of another signature is not used. -/
def signature (view : View) : UInt64 := XXH3.hash ⟨view.signatureBytes.toArray⟩

/-- An optional field in a description. -/
private def describeOption (text : Option String) : String :=
  match text with
  | some text => "Some(" ++ text ++ ")"
  | none => "None"

/-- All fields but the map, in readable form. -/
def describe (view : View) : String :=
  "ViewDefinition \x7b name: " ++ Text.quoted view.name ++
    ", doc_type: " ++ describeOption (view.docType.map Text.quoted) ++
    ", version: " ++ Text.quoted view.version ++
    ", reducer: " ++ describeOption (view.reducer.map Reducer.describe) ++ " \x7d"

end View

end ViewIndex
