import ViewIndex.Store.Basic
import ViewIndex.View.Basic

/-!
# Evaluating documents

A document is mapped and its emissions are encoded. A failing map leaves the document as it was in
the index; an emission that cannot be encoded is dropped by itself. A `Tally` counts both, and the
emissions whose keys have another number of components than the first one seen.
-/

namespace ViewIndex

/-- What was noticed while documents were evaluated. -/
structure Tally where
  /-- Documents on which the map failed. -/
  mapErrors : Nat := 0
  /-- Emissions that could not be encoded. -/
  encodingErrors : Nat := 0
  /-- Emissions whose arity differs from the first. -/
  arityDrift : Nat := 0
  firstArity : Option Nat := none
deriving DecidableEq, Repr

/-- Takes notice of the arity of an encoded emission. -/
def Tally.observe (tally : Tally) (arity : Nat) : Tally :=
  match tally.firstArity with
  | none => { tally with firstArity := some arity }
  | some first =>
      if first = arity then tally else { tally with arityDrift := tally.arityDrift + 1 }

namespace View

/-- The entries that emissions give, in order. -/
def encodeEmissions : Tally → List Emission → Tally × List (EncodedKey × Json)
  | tally, [] => (tally, [])
  | tally, emission :: rest =>
      match emission.encodeKey with
      | .ok key =>
          let (tally, entries) := encodeEmissions (tally.observe emission.key.length) rest
          (tally, (key, emission.value) :: entries)
      | .error _ => encodeEmissions { tally with encodingErrors := tally.encodingErrors + 1 } rest

/-- The entries of a document, or nothing if the map fails on it. -/
def evaluate (view : View) (tally : Tally) (doc : Document) : Tally × Option DocUpdate :=
  match view.emissions doc with
  | .error _ => ({ tally with mapErrors := tally.mapErrors + 1 }, none)
  | .ok emissions =>
      let (tally, entries) := encodeEmissions tally emissions
      (tally, some ⟨doc.id, entries⟩)

/-- What an event makes of the entries of its document. -/
def evaluateEvent (view : View) (tally : Tally) (event : ChangeEvent) : Tally × Option DocUpdate :=
  match event.document? with
  | some doc => view.evaluate tally doc
  | none => (tally, some (.removal event.docId))

/-- The updates that a list gives, item by item. -/
def collectUpdates {α : Type} (evaluate : Tally → α → Tally × Option DocUpdate) :
    Tally → List α → Tally × List DocUpdate
  | tally, [] => (tally, [])
  | tally, item :: rest =>
      let (tally, update) := evaluate tally item
      let (tally, updates) := collectUpdates evaluate tally rest
      (tally, update.toList ++ updates)

end View

end ViewIndex
