import ViewIndex.Indexer.Basic
import ViewIndex.Proofs.Indexer.Evaluate
import ViewIndex.Proofs.Key.Orderable

/-!
# What is noticed during evaluation

An emission without a key is dropped alone: the others of its document become entries in their
order, numbered without gaps. A map that fails on a document leaves its entries as they are. A tally
that starts from nothing counts the failures, the emissions that were dropped, and those whose
number of components differs from the first one that was not.
-/

namespace ViewIndex

namespace Tally

/-- The numbers of components of those emissions that have a key. -/
def arities (emissions : List Emission) : List Nat :=
  (emissions.filter Emission.isOrderable).map fun emission => emission.key.length

/-- How many numbers differ from the first one. -/
def drift (arities : List Nat) : Nat := arities.countP fun arity => some arity ≠ arities.head?

/-- The tally is that of the given emissions, in their order, and of a number of failed maps. -/
structure Records (tally : Tally) (emissions : List Emission) (failures : Nat) : Prop where
  mapErrors : tally.mapErrors = failures
  encodingErrors : tally.encodingErrors = emissions.countP fun emission => !emission.isOrderable
  firstArity : tally.firstArity = (arities emissions).head?
  arityDrift : tally.arityDrift = drift (arities emissions)

theorem drift_concat (arities : List Nat) (arity : Nat) :
    drift (arities ++ [arity])
      = drift arities + if arities.head?.all (· = arity) then 0 else 1 := by
  cases arities with
  | nil => simp [drift]
  | cons first rest =>
      rw [drift, List.countP_append, List.countP_singleton, List.cons_append, List.head?_cons]
      by_cases hsame : first = arity
      · simp [drift, hsame]
      · simp [drift, hsame, Ne.symm hsame]

variable {tally : Tally} {emissions : List Emission} {emission : Emission} {failures : Nat}

@[simp]
theorem mapErrors_observe (tally : Tally) (arity : Nat) :
    (tally.observe arity).mapErrors = tally.mapErrors := by
  unfold observe
  split
  · rfl
  · split <;> rfl

@[simp]
theorem encodingErrors_observe (tally : Tally) (arity : Nat) :
    (tally.observe arity).encodingErrors = tally.encodingErrors := by
  unfold observe
  split
  · rfl
  · split <;> rfl

theorem records_empty : Records {} [] 0 := ⟨rfl, rfl, rfl, rfl⟩

theorem Records.observe (h : tally.Records emissions failures)
    (horderable : emission.isOrderable = true) :
    (tally.observe emission.key.length).Records (emissions ++ [emission]) failures := by
  have harities : arities (emissions ++ [emission])
      = arities emissions ++ [emission.key.length] := by
    simp [arities, horderable]
  have hdropped : (emissions ++ [emission]).countP (fun emission => !emission.isOrderable)
      = tally.encodingErrors := by
    rw [h.encodingErrors, List.countP_append, List.countP_singleton, horderable]
    rfl
  have hdrift := drift_concat (arities emissions) emission.key.length
  rw [← harities, ← h.firstArity, ← h.arityDrift] at hdrift
  have hfirst : (arities (emissions ++ [emission])).head?
      = tally.firstArity.or (some emission.key.length) := by
    rw [harities, List.head?_append, h.firstArity]
    rfl
  unfold Tally.observe
  split
  next hnone =>
    rw [hnone] at hfirst hdrift
    exact ⟨h.mapErrors, hdropped.symm, hfirst.symm, hdrift.symm⟩
  next first hsome =>
    rw [hsome] at hfirst hdrift
    split
    next hsame =>
      rw [hsame] at hdrift
      exact ⟨h.mapErrors, hdropped.symm, hsome.trans hfirst.symm, by simpa using hdrift.symm⟩
    next hdiffers =>
      exact ⟨h.mapErrors, hdropped.symm, hsome.trans hfirst.symm, by simp [hdrift, hdiffers]⟩

theorem Records.drop (h : tally.Records emissions failures)
    (horderable : emission.isOrderable = false) :
    Records { tally with encodingErrors := tally.encodingErrors + 1 } (emissions ++ [emission])
      failures := by
  have harities : arities (emissions ++ [emission]) = arities emissions := by
    simp [arities, horderable]
  refine ⟨h.mapErrors, ?_, harities ▸ h.firstArity, harities ▸ h.arityDrift⟩
  rw [h.encodingErrors, List.countP_append, List.countP_singleton, horderable]
  rfl

theorem Records.fail (h : tally.Records emissions failures) :
    Records { tally with mapErrors := tally.mapErrors + 1 } emissions (failures + 1) :=
  ⟨congrArg (· + 1) h.mapErrors, h.encodingErrors, h.firstArity, h.arityDrift⟩

end Tally

namespace View

open Tally (Records)

variable {view : View} {tally : Tally} {emissions : List Emission} {doc : Document}

/-- What the map emits for a document, that is nothing if the document is of another type; no list
at all if the map refuses the document or breaks off. -/
def emitted? (view : View) (doc : Document) : Option (List Emission) :=
  if view.appliesTo doc then
    match view.map doc with
    | .emitted emissions => some emissions
    | .refused _ | .crashed _ => none
  else some []

/-- The map emits values with numbers of JSON only. -/
def IsRegular (view : View) : Prop :=
  ∀ doc emissions, view.map doc = .emitted emissions → ∀ e ∈ emissions, e.isRegular = true

theorem IsRegular.of_emitted? (h : view.IsRegular) (hemitted : view.emitted? doc = some emissions) :
    ∀ e ∈ emissions, e.isRegular = true := by
  unfold emitted? at hemitted
  split at hemitted
  next =>
    split at hemitted
    next hmap =>
      cases hemitted
      exact h doc emissions hmap
    next => cases hemitted
    next => cases hemitted
  next =>
    cases hemitted
    exact fun e he => nomatch he

theorem emissions_of_emitted? (h : view.emitted? doc = some emissions) :
    view.emissions doc = .ok emissions := by
  unfold emitted? at h
  rw [View.emissions]
  by_cases happlies : view.appliesTo doc = true
  · rw [if_pos happlies] at h ⊢
    cases hmap : view.map doc <;> rw [hmap] at h <;> cases h
    rfl
  · rw [if_neg happlies] at h ⊢
    cases h
    rfl

theorem exists_of_emitted?_eq_none (h : view.emitted? doc = none) :
    ∃ e, view.emissions doc = .error e := by
  unfold emitted? at h
  rw [View.emissions]
  by_cases happlies : view.appliesTo doc = true
  · rw [if_pos happlies] at h ⊢
    cases hmap : view.map doc with
    | emitted emissions => rw [hmap] at h; cases h
    | refused reason => exact ⟨_, rfl⟩
    | crashed message => exact ⟨_, rfl⟩
  · rw [if_neg happlies] at h
    cases h

/-! ## One document -/

/-- The update has the emissions that have a key, in their order. -/
structure Lists (update : DocUpdate) (docId : String) (emissions : List Emission) : Prop where
  docId_eq : update.docId = docId
  entries : List.Forall₂
    (fun emission entry => emission.encodeKey = .ok entry.1 ∧ emission.value = entry.2)
    (emissions.filter Emission.isOrderable) update.entries
  /-- The entries are numbered without gaps. -/
  ordinals : update.indexEntries.map (fun e => e.id.ordinal) = List.range update.entries.length

/-- What evaluating a document comes to after what has been noticed before. -/
structure Evaluated (view : View) (tally : Tally) (doc : Document) : Prop where
  of_emitted : ∀ emissions, view.emitted? doc = some emissions →
    ∃ update, (view.evaluate tally doc).2 = some update ∧ Lists update doc.id emissions ∧
      (view.evaluate tally doc).1.encodingErrors
        = tally.encodingErrors + emissions.countP (fun emission => !emission.isOrderable) ∧
      (view.evaluate tally doc).1.mapErrors = tally.mapErrors
  of_failed : view.emitted? doc = none →
    view.evaluate tally doc = ({ tally with mapErrors := tally.mapErrors + 1 }, none)

theorem ordinals_indexEntries (update : DocUpdate) :
    update.indexEntries.map (fun e => e.id.ordinal) = List.range update.entries.length := by
  apply List.ext_getElem
  · simp [DocUpdate.indexEntries]
  · intro i _ _
    simp [DocUpdate.indexEntries]

theorem encodeEmissions_of_isOrderable {emission : Emission} {key : EncodedKey}
    (hkey : emission.encodeKey = .ok key) (tally : Tally) (rest : List Emission) :
    encodeEmissions tally (emission :: rest)
      = ((encodeEmissions (tally.observe emission.key.length) rest).1,
        (key, emission.value) :: (encodeEmissions (tally.observe emission.key.length) rest).2) := by
  rw [encodeEmissions, hkey]

theorem encodeEmissions_of_error {emission : Emission} {e : KeyError}
    (hkey : emission.encodeKey = .error e) (tally : Tally) (rest : List Emission) :
    encodeEmissions tally (emission :: rest)
      = encodeEmissions { tally with encodingErrors := tally.encodingErrors + 1 } rest := by
  rw [encodeEmissions, hkey]

/-- The emissions with a key become entries. -/
theorem forall₂_encodeEmissions (hregular : ∀ e ∈ emissions, e.isRegular = true) (tally : Tally) :
    List.Forall₂ (fun emission entry => emission.encodeKey = .ok entry.1 ∧ emission.value = entry.2)
      (emissions.filter Emission.isOrderable) (encodeEmissions tally emissions).2 := by
  induction emissions generalizing tally with
  | nil => exact .nil
  | cons emission rest ih =>
      obtain ⟨hfirst, hrest⟩ := List.forall_mem_cons.mp hregular
      cases horderable : emission.isOrderable with
      | true =>
          obtain ⟨key, hkey⟩ := Emission.exists_encodeKey hfirst horderable
          rw [List.filter_cons_of_pos horderable, encodeEmissions_of_isOrderable hkey]
          exact .cons ⟨hkey, rfl⟩ (ih hrest _)
      | false =>
          rw [List.filter_cons_of_neg (by simp [horderable]),
            encodeEmissions_of_error (Emission.encodeKey_of_not_isOrderable hfirst horderable)]
          exact ih hrest _

/-- An emission without a key is counted as such, and no emission counts as a failure. -/
theorem counts_encodeEmissions (hregular : ∀ e ∈ emissions, e.isRegular = true) (tally : Tally) :
    (encodeEmissions tally emissions).1.encodingErrors
        = tally.encodingErrors + emissions.countP (fun emission => !emission.isOrderable) ∧
      (encodeEmissions tally emissions).1.mapErrors = tally.mapErrors := by
  induction emissions generalizing tally with
  | nil => exact ⟨rfl, rfl⟩
  | cons emission rest ih =>
      obtain ⟨hfirst, hrest⟩ := List.forall_mem_cons.mp hregular
      cases horderable : emission.isOrderable with
      | true =>
          obtain ⟨key, hkey⟩ := Emission.exists_encodeKey hfirst horderable
          obtain ⟨hdropped, hfailed⟩ := ih hrest (tally.observe emission.key.length)
          rw [encodeEmissions_of_isOrderable hkey, List.countP_cons_of_neg (by simp [horderable])]
          exact ⟨by simpa using hdropped, by simpa using hfailed⟩
      | false =>
          obtain ⟨hdropped, hfailed⟩ :=
            ih hrest { tally with encodingErrors := tally.encodingErrors + 1 }
          rw [encodeEmissions_of_error (Emission.encodeKey_of_not_isOrderable hfirst horderable),
            List.countP_cons_of_pos (by simp [horderable])]
          exact ⟨by rw [hdropped, Nat.add_assoc, Nat.add_comm 1], hfailed⟩

theorem evaluate_of_emitted? (h : view.emitted? doc = some emissions) (tally : Tally) :
    view.evaluate tally doc = ((encodeEmissions tally emissions).1,
      some ⟨doc.id, (encodeEmissions tally emissions).2⟩) := by
  rw [evaluate, emissions_of_emitted? h]

theorem evaluate_of_emitted?_eq_none (h : view.emitted? doc = none) (tally : Tally) :
    view.evaluate tally doc = ({ tally with mapErrors := tally.mapErrors + 1 }, none) := by
  obtain ⟨e, he⟩ := exists_of_emitted?_eq_none h
  rw [evaluate, he]

theorem IsRegular.evaluated (h : view.IsRegular) (tally : Tally) (doc : Document) :
    view.Evaluated tally doc where
  of_emitted emissions hemitted := by
    have hregular := h.of_emitted? hemitted
    rw [evaluate_of_emitted? hemitted]
    exact ⟨_, rfl, ⟨rfl, forall₂_encodeEmissions hregular tally, ordinals_indexEntries _⟩,
      counts_encodeEmissions hregular tally⟩
  of_failed hfailed := evaluate_of_emitted?_eq_none hfailed tally

/-! ## Documents one after the other -/

/-- What was noticed of earlier emissions is carried on by the next ones. -/
theorem records_encodeEmissions {earlier : List Emission} {failures : Nat}
    (h : tally.Records earlier failures) (hregular : ∀ e ∈ emissions, e.isRegular = true) :
    (encodeEmissions tally emissions).1.Records (earlier ++ emissions) failures := by
  induction emissions generalizing tally earlier with
  | nil => rwa [List.append_nil]
  | cons emission rest ih =>
      obtain ⟨hfirst, hrest⟩ := List.forall_mem_cons.mp hregular
      rw [List.append_cons]
      cases horderable : emission.isOrderable with
      | true =>
          obtain ⟨key, hkey⟩ := Emission.exists_encodeKey hfirst horderable
          rw [encodeEmissions_of_isOrderable hkey]
          exact ih (h.observe horderable) hrest
      | false =>
          rw [encodeEmissions_of_error (Emission.encodeKey_of_not_isOrderable hfirst horderable)]
          exact ih (h.drop horderable) hrest

/-- What was noticed of earlier documents is carried on by the next one. -/
theorem records_evaluate {earlier : List Emission} {failures : Nat} (hview : view.IsRegular)
    (h : tally.Records earlier failures) (doc : Document) :
    (view.evaluate tally doc).1.Records (earlier ++ (view.emitted? doc).getD [])
      (failures + if (view.emitted? doc).isNone then 1 else 0) := by
  cases hemitted : view.emitted? doc with
  | none =>
      rw [evaluate_of_emitted?_eq_none hemitted, Option.getD_none, List.append_nil]
      exact h.fail
  | some emissions =>
      rw [evaluate_of_emitted? hemitted]
      exact records_encodeEmissions h (hview.of_emitted? hemitted)

theorem records_collectUpdates {earlier : List Emission} {failures : Nat} (hview : view.IsRegular)
    (h : tally.Records earlier failures) (docs : List Document) :
    (collectUpdates view.evaluate tally docs).1.Records
      (earlier ++ docs.flatMap fun doc => (view.emitted? doc).getD [])
      (failures + docs.countP fun doc => (view.emitted? doc).isNone) := by
  induction docs generalizing tally earlier failures with
  | nil => rwa [List.flatMap_nil, List.append_nil]
  | cons doc rest ih =>
      have hnext := ih (records_evaluate hview h doc)
      rw [List.append_assoc, Nat.add_assoc] at hnext
      rw [collectUpdates, List.flatMap_cons, List.countP_cons, Nat.add_comm (rest.countP _)]
      exact hnext

/-- An emission has a key exactly if no component holds an object. Evaluating a document drops the
emissions that have none and keeps the others, or else notices that the map failed. The tally of a
new indexer that evaluates documents one after the other is that of all they emitted. -/
theorem evaluate_tallies (view : View) (hview : view.IsRegular) :
    (∀ doc emissions, view.emitted? doc = some emissions → ∀ emission ∈ emissions,
      ((∃ key, emission.encodeKey = .ok key) ↔
        ∀ component ∈ emission.key, component.hasObject = false)) ∧
    (∀ tally doc, view.Evaluated tally doc) ∧
    ∀ config checkpoint docs,
      (collectUpdates view.evaluate (Indexer.create view config checkpoint).tally docs).1.Records
        (docs.flatMap fun doc => (view.emitted? doc).getD [])
        (docs.countP fun doc => (view.emitted? doc).isNone) := by
  refine ⟨fun doc emissions hemitted emission hmem => ?_, hview.evaluated, fun _ _ docs => ?_⟩
  · rw [Emission.exists_encodeKey_iff (hview.of_emitted? hemitted emission hmem),
      Emission.isOrderable_iff]
  · have hrecords := records_collectUpdates hview Tally.records_empty docs
    rwa [List.nil_append, Nat.zero_add] at hrecords

end View

/-! ## Keys that cannot be ordered -/

namespace Mixed

/-- Three keys, the second of which holds an object. -/
def emissions (b : Bool) : List Emission :=
  [⟨[.bool b], .nat 0⟩, ⟨[.null, .array [.object []]], .nat 1⟩, ⟨[.null, .bool b], .nat 2⟩]

def view : View where
  name := "mixed"
  map doc :=
    match doc.content with
    | .bool b => .emitted (emissions b)
    | .null => .crashed none
    | _ => .refused "no truth value"

theorem isRegular_view : view.IsRegular := by
  intro doc _ hmap
  unfold view at hmap
  dsimp only at hmap
  split at hmap
  next b _ =>
    cases hmap
    cases b <;> decide
  next => cases hmap
  next => cases hmap

/-- Of six keys two are dropped, and two of the others are longer than the first. -/
theorem evaluate_tallies_mixed :
    (∃ update, (view.evaluate {} ⟨"a", "1", .bool true⟩).2 = some update ∧
      View.Lists update "a" (emissions true)) ∧
    let tally := (View.collectUpdates view.evaluate (Indexer.create view {} none).tally
      [⟨"a", "1", .bool true⟩, ⟨"b", "1", .null⟩, ⟨"c", "1", .bool false⟩]).1
    tally.mapErrors = 1 ∧ tally.encodingErrors = 2 ∧ tally.arityDrift = 2 := by
  obtain ⟨-, hevaluated, hrecords⟩ := View.evaluate_tallies view isRegular_view
  obtain ⟨update, hupdate, hlists, -⟩ :=
    (hevaluated {} ⟨"a", "1", .bool true⟩).of_emitted (emissions true) rfl
  have htally := hrecords {} none
    [⟨"a", "1", .bool true⟩, ⟨"b", "1", .null⟩, ⟨"c", "1", .bool false⟩]
  exact ⟨⟨update, hupdate, hlists⟩, htally.mapErrors, htally.encodingErrors, htally.arityDrift⟩

end Mixed

end ViewIndex
