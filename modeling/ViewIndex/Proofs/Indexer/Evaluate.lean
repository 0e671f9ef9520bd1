import ViewIndex.Indexer.Evaluate
import ViewIndex.Proofs.Store.Contents

/-!
# Entries of documents

What a document contributes to a view does not depend on what was noticed before. If the map never
fails on a document of its type, every document gives an update, and a list of events replaces the
entries of each document by those after its last event.
-/

namespace ViewIndex

theorem ChangeEvent.id_of_document? {event : ChangeEvent} {doc : Document}
    (h : event.document? = some doc) : doc.id = event.docId := by
  unfold document? at h
  split at h <;> cases h
  rfl

namespace View

variable {view : View}

/-- The map emits something, if only nothing, for every document of its type. -/
def IsTotal (view : View) : Prop :=
  ∀ doc, view.appliesTo doc = true → ∃ emissions, view.map doc = .emitted emissions

/-- The entries that evaluating a document gives. -/
def entriesOf (view : View) (doc : Document) : List (EncodedKey × Json) :=
  ((view.evaluate {} doc).2.map DocUpdate.entries).getD []

/-- The entries that a document has after its last event, if it has had one. -/
def entriesAfter (view : View) (last : Option ChangeEvent) : List (EncodedKey × Json) :=
  ((last.bind ChangeEvent.document?).map view.entriesOf).getD []

theorem encodeEmissions_snd (tally : Tally) (emissions : List Emission) :
    (encodeEmissions tally emissions).2 = (encodeEmissions {} emissions).2 := by
  suffices h : ∀ tally tally', (encodeEmissions tally emissions).2
      = (encodeEmissions tally' emissions).2 from h _ _
  induction emissions with
  | nil => exact fun _ _ => rfl
  | cons emission rest ih =>
      intro tally tally'
      rw [encodeEmissions, encodeEmissions]
      split
      · exact congrArg (_ :: ·) (ih _ _)
      · exact ih _ _

/-- What a document gives, whatever was noticed before it. -/
def update? (view : View) (doc : Document) : Option DocUpdate := (view.evaluate {} doc).2

/-- What an event makes of the entries of its document, unless the map fails on it. -/
def updateAfter? (view : View) (event : ChangeEvent) : Option DocUpdate :=
  (view.evaluateEvent {} event).2

theorem evaluate_eq_update? (tally : Tally) (doc : Document) :
    (view.evaluate tally doc).2 = view.update? doc := by
  unfold update? evaluate
  split
  next => rfl
  next emissions _ =>
    dsimp only
    rw [encodeEmissions_snd tally]

theorem evaluateEvent_eq_updateAfter? (tally : Tally) (event : ChangeEvent) :
    (view.evaluateEvent tally event).2 = view.updateAfter? event := by
  unfold updateAfter? evaluateEvent
  split
  next doc _ => rw [evaluate_eq_update?, evaluate_eq_update?]
  next => rfl

theorem docId_of_evaluate {tally : Tally} {doc : Document} {update : DocUpdate}
    (h : (view.evaluate tally doc).2 = some update) : update.docId = doc.id := by
  unfold evaluate at h
  split at h
  next => cases h
  next =>
    obtain rfl := Option.some.inj h
    rfl

theorem entriesOf_eq (doc : Document) :
    view.entriesOf doc = ((view.update? doc).map DocUpdate.entries).getD [] := rfl

theorem eq_of_update? {doc : Document} {update : DocUpdate} (h : view.update? doc = some update) :
    update = ⟨doc.id, view.entriesOf doc⟩ := by
  rw [entriesOf_eq, h, ← docId_of_evaluate h]
  rfl

theorem evaluate_snd (h : view.IsTotal) (tally : Tally) (doc : Document) :
    (view.evaluate tally doc).2 = some ⟨doc.id, view.entriesOf doc⟩ := by
  have hemissions : ∃ emissions, view.emissions doc = .ok emissions := by
    unfold emissions
    split
    next happlies =>
      obtain ⟨emissions, hmap⟩ := h doc happlies
      exact ⟨emissions, by rw [hmap]⟩
    next => exact ⟨[], rfl⟩
  obtain ⟨emissions, hemissions⟩ := hemissions
  simp only [entriesOf, evaluate, hemissions, encodeEmissions_snd tally]
  rfl

/-- The map is not asked about the documents that have another type than the view, or none. -/
theorem appliesTo_eq_false_iff {doc : Document} :
    view.appliesTo doc = false ↔
      ∃ docType, view.docType = some docType ∧ doc.docType? ≠ some docType := by
  unfold appliesTo
  cases view.docType with
  | none => simp
  | some docType => simp

/-- A document of another type has no entries. -/
theorem entriesOf_of_not_applies {doc : Document} (h : view.appliesTo doc = false) :
    view.entriesOf doc = [] := by
  simp [entriesOf, evaluate, emissions, h, encodeEmissions]

theorem evaluateEvent_snd (h : view.IsTotal) (tally : Tally) (event : ChangeEvent) :
    (view.evaluateEvent tally event).2
      = some ⟨event.docId, view.entriesAfter (some event)⟩ := by
  unfold evaluateEvent entriesAfter
  rw [Option.bind_some]
  cases hdoc : event.document? with
  | none => rfl
  | some doc =>
      rw [← ChangeEvent.id_of_document? hdoc]
      exact evaluate_snd h tally doc

theorem collectUpdates_eq_filterMap {α : Type} {evaluate : Tally → α → Tally × Option DocUpdate}
    {update? : α → Option DocUpdate} (h : ∀ tally item, (evaluate tally item).2 = update? item)
    (tally : Tally) (items : List α) :
    (collectUpdates evaluate tally items).2 = items.filterMap update? := by
  induction items generalizing tally with
  | nil => rfl
  | cons item rest ih =>
      rw [collectUpdates, List.filterMap_cons]
      dsimp only
      rw [h, ih]
      cases update? item <;> rfl

theorem collectUpdates_snd {α : Type} {evaluate : Tally → α → Tally × Option DocUpdate}
    {update : α → DocUpdate} (h : ∀ tally item, (evaluate tally item).2 = some (update item))
    (tally : Tally) (items : List α) :
    (collectUpdates evaluate tally items).2 = items.map update := by
  rw [collectUpdates_eq_filterMap h, List.filterMap_eq_map']

/-- No document is updated twice if none is listed twice. -/
theorem nodup_updates (view : View) {docs : List Document}
    (h : (docs.map Document.id).Nodup) :
    ((docs.filterMap view.update?).map DocUpdate.docId).Nodup := by
  refine List.Nodup.sublist ?_ h
  clear h
  induction docs with
  | nil => exact List.Sublist.slnil
  | cons doc rest ih =>
      rw [List.map_cons]
      cases hupdate : view.update? doc with
      | none =>
          rw [List.filterMap_cons_none hupdate]
          exact ih.cons doc.id
      | some update =>
          rw [List.filterMap_cons_some hupdate, List.map_cons, docId_of_evaluate hupdate]
          exact ih.cons_cons doc.id

theorem nodup_collectUpdates (view : View) (tally : Tally) {docs : List Document}
    (h : (docs.map Document.id).Nodup) :
    ((collectUpdates view.evaluate tally docs).2.map DocUpdate.docId).Nodup := by
  rw [collectUpdates_eq_filterMap evaluate_eq_update?]
  exact nodup_updates view h

/-- Events replace the entries of each document by those after its last event. -/
theorem setAll_events (contents : Contents) (events : List ChangeEvent) (docId : String) :
    contents.setAll
        (events.map fun event => ⟨event.docId, view.entriesAfter (some event)⟩) docId
      = (((events.filter fun event => event.docId = docId).getLast?).map fun event =>
          view.entriesAfter (some event)).getD (contents docId) := by
  rw [Contents.setAll_eq_getLast?, List.filter_map, List.getLast?_map, Option.map_map]
  rfl

theorem docId_nodup {docs : Std.ExtTreeMap String Document}
    (hid : ∀ (docId : String) (doc : Document), docs[docId]? = some doc → doc.id = docId) :
    ((docs.toList.map Prod.snd).map Document.id).Nodup := by
  have hkeys : (docs.toList.map Prod.snd).map Document.id = docs.toList.map Prod.fst := by
    rw [List.map_map]
    apply List.map_congr_left
    intro item hitem
    exact hid item.1 item.2 (Std.ExtTreeMap.mem_toList_iff_getElem?_eq_some.mp hitem)
  rw [hkeys, Std.ExtTreeMap.map_fst_toList_eq_keys]
  exact Std.ExtTreeMap.nodup_keys

/-- The updates of all documents give each document its entries. -/
theorem setAll_docs {docs : Std.ExtTreeMap String Document}
    (hid : ∀ (docId : String) (doc : Document), docs[docId]? = some doc → doc.id = docId)
    (docId : String) :
    Contents.empty.setAll
        ((docs.toList.map Prod.snd).map fun doc : Document => ⟨doc.id, view.entriesOf doc⟩) docId
      = (docs[docId]?.map view.entriesOf).getD [] := by
  have hdistinct := docId_nodup hid
  -- Each document is listed once, under its own id.
  generalize hupdates : ((docs.toList.map Prod.snd).map fun doc : Document =>
    (⟨doc.id, view.entriesOf doc⟩ : DocUpdate)) = updates
  have hids : updates.map DocUpdate.docId = (docs.toList.map Prod.snd).map Document.id := by
    rw [← hupdates, List.map_map]
    rfl
  rw [← hids] at hdistinct
  cases hget : docs[docId]? with
  | none =>
      apply Contents.setAll_of_not_mem
      intro hmem
      rw [hids, List.map_map] at hmem
      obtain ⟨item, hitem, rfl⟩ := List.mem_map.mp hmem
      have hsome := Std.ExtTreeMap.mem_toList_iff_getElem?_eq_some.mp hitem
      rw [Function.comp_apply, hid item.1 item.2 hsome, hsome] at hget
      cases hget
  | some doc =>
      obtain rfl := hid docId doc hget
      have hmem : (⟨doc.id, view.entriesOf doc⟩ : DocUpdate) ∈ updates := by
        rw [← hupdates, List.map_map]
        exact List.mem_map.mpr
          ⟨(doc.id, doc), Std.ExtTreeMap.mem_toList_iff_getElem?_eq_some.mpr hget, rfl⟩
      exact Contents.setAll_of_mem hdistinct hmem

end View

end ViewIndex
