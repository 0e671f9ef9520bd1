import Std.Data.ExtTreeMap
import ViewIndex.Json.Basic

/-!
# Documents and changes

A document store holds documents and tells what happened to them: every change is an event of one
partition, numbered within it. A `Position` says how far each partition has been followed.
-/

namespace ViewIndex

/-- For each partition the number of the last event that was taken in. -/
abbrev Position := Std.ExtTreeMap Nat Nat

namespace Position

/-- The number of the last event of a partition; zero before the first. -/
def seq (position : Position) (partition : Nat) : Nat := position.getD partition 0

/-- How many events `tail` is ahead of `position`, partitions that are not ahead counting
nothing. -/
def lag (tail position : Position) : Nat :=
  (tail.toList.map fun (partition, last) => last - position.seq partition).foldr (· + ·) 0

/-- The later of two positions in every partition. -/
def merge (a b : Position) : Position :=
  b.toList.foldl (fun merged (partition, seq) =>
    merged.insert partition (max (merged.seq partition) seq)) a

end Position

/-- A document with its current revision. -/
structure Document where
  id : String
  revision : String
  content : Json
deriving DecidableEq, Repr

namespace Document

/-- A top-level field; a missing one reads as null. -/
def field (doc : Document) (name : String) : Json := (doc.content.field? name).getD .null

def docType? (doc : Document) : Option String := (doc.content.field? "type").bind Json.asText?

end Document

/-- What happened to a document. -/
inductive Change where
  /-- It was created or changed to this content. -/
  | upsert (content : Json)
  | delete
deriving DecidableEq, Repr

structure ChangeEvent where
  partition : Nat
  seq : Nat
  docId : String
  revision : String
  change : Change
deriving DecidableEq, Repr

namespace ChangeEvent

def isDelete (event : ChangeEvent) : Bool := event.change == .delete

/-- The document as the event left it, unless the event deleted it. -/
def document? (event : ChangeEvent) : Option Document :=
  match event.change with
  | .upsert content => some ⟨event.docId, event.revision, content⟩
  | .delete => none

end ChangeEvent

end ViewIndex
