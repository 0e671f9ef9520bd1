import ViewIndex.Proofs.Indexer.Currency
import ViewIndex.Proofs.Lists

/-!
# Maps that fail

A document on which the map fails gives no update. An event of such a revision leaves the entries
that the document had, while an index that is built anew has none of it. So the entries that a
document has by some position depend on where the index was last built, but not on how the events
behind that were cut into batches. They are those of the current revision unless the map fails on
it.
-/

namespace ViewIndex

open MemoryStore (Extends)

theorem MemoryStore.chunk_append_chunk (store : MemoryStore) (p : Nat) {start mid stop : Nat}
    (hstart : start ≤ mid) (hstop : mid ≤ stop) :
    store.chunk p start mid ++ store.chunk p mid stop = store.chunk p start stop := by
  have hlength : stop - start = (mid - start) + (stop - mid) := by omega
  rw [chunk, chunk, chunk, hlength, List.take_add, List.drop_drop, Nat.add_sub_cancel' hstart]

namespace View

variable {view : View}

/-! ## Updates -/

theorem isSome_update?_iff {doc : Document} :
    (view.update? doc).isSome ↔ ∃ emissions, view.emissions doc = .ok emissions := by
  unfold update? evaluate
  cases view.emissions doc <;> simp

theorem entriesAfter_some (event : ChangeEvent) :
    view.entriesAfter (some event) = ((view.updateAfter? event).map DocUpdate.entries).getD [] := by
  unfold entriesAfter updateAfter? evaluateEvent
  rw [Option.bind_some]
  cases event.document? <;> rfl

theorem docId_of_updateAfter? {event : ChangeEvent} {update : DocUpdate}
    (h : view.updateAfter? event = some update) : update.docId = event.docId := by
  unfold updateAfter? evaluateEvent at h
  split at h
  next doc hdoc => rw [docId_of_evaluate h, ChangeEvent.id_of_document? hdoc]
  next =>
    obtain rfl := Option.some.inj h
    rfl

theorem filter_filterMap_updateAfter? (events : List ChangeEvent) (docId : String) :
    (events.filterMap view.updateAfter?).filter (fun update => update.docId = docId)
      = (events.filter fun event => event.docId = docId).filterMap view.updateAfter? := by
  induction events with
  | nil => rfl
  | cons event rest ih =>
      cases hupdate : view.updateAfter? event with
      | none => by_cases hdoc : event.docId = docId <;> simp [hupdate, hdoc, ih]
      | some update =>
          have hid := docId_of_updateAfter? hupdate
          by_cases hdoc : event.docId = docId <;> simp [hupdate, hid, hdoc, ih]

/-- Events replace the entries of a document by those after the last of its events on which the map
does not fail. -/
theorem setAll_updatesAfter (contents : Contents) (events : List ChangeEvent) (docId : String) :
    contents.setAll (events.filterMap view.updateAfter?) docId
      = (((events.filter fun event => event.docId = docId).filter fun event =>
          (view.updateAfter? event).isSome).getLast?.map fun event =>
            view.entriesAfter (some event)).getD (contents docId) := by
  rw [Contents.setAll_eq_getLast?, filter_filterMap_updateAfter?, getLast?_filterMap_eq]
  generalize hlast : ((events.filter fun event => event.docId = docId).filter fun event =>
    (view.updateAfter? event).isSome).getLast? = last
  cases last with
  | none => rfl
  | some event =>
      obtain ⟨update, hupdate⟩ :=
        Option.isSome_iff_exists.mp (List.mem_filter.mp (List.mem_of_getLast? hlast)).2
      rw [Option.map_some, entriesAfter_some, Option.bind_some, hupdate]
      rfl

/-- While documents are listed for the first time, it makes no difference whether one without
entries is among them. -/
theorem setAll_updates {contents : Contents} {docs : List Document}
    (hdistinct : (docs.map Document.id).Nodup) (hnone : ∀ doc ∈ docs, contents doc.id = []) :
    contents.setAll (docs.filterMap view.update?)
      = contents.setAll (docs.map fun doc => ⟨doc.id, view.entriesOf doc⟩) := by
  induction docs generalizing contents with
  | nil => rfl
  | cons doc rest ih =>
      obtain ⟨hfresh, hdistinct⟩ := List.nodup_cons.mp hdistinct
      obtain ⟨hdoc, hnone⟩ := List.forall_mem_cons.mp hnone
      cases hupdate : view.update? doc with
      | none =>
          have hsame : contents.set ⟨doc.id, view.entriesOf doc⟩ = contents := by
            funext docId
            rw [entriesOf_eq, hupdate]
            by_cases hid : docId = doc.id
            · rw [hid, hdoc]
              exact if_pos rfl
            · exact if_neg hid
          rw [List.filterMap_cons_none hupdate, ih hdistinct hnone]
          conv_lhs => rw [← hsame]
          rfl
      | some update =>
          rw [List.filterMap_cons_some hupdate, List.map_cons, ← eq_of_update? hupdate]
          refine ih hdistinct fun other hother => ?_
          rw [Contents.set_of_ne, hnone other hother]
          rw [docId_of_evaluate hupdate]
          intro hid
          exact hfresh (hid ▸ List.mem_map_of_mem hother)

/-! ## Entries since the index was built -/

/-- The entries that each document has in an index that was built from the documents at one position
and has followed the events up to another one. -/
def contentsSince (view : View) (store : MemoryStore) (built position : Position) : Contents :=
  fun docId =>
    let p := store.partitionOf docId
    (view.contentsAt store built).setAll
      ((store.chunk p (built.seq p) (position.seq p)).filterMap view.updateAfter?) docId

/-- The last event of a document on which the map does not fail. -/
def lastSettled? (view : View) (store : MemoryStore) (docId : String) : Option ChangeEvent :=
  ((store.log (store.partitionOf docId)).toList.filter fun event =>
    event.docId = docId ∧ (view.updateAfter? event).isSome).getLast?

section

variable {store : MemoryStore} {built position : Position}

theorem contentsSince_self (position : Position) :
    view.contentsSince store position position = view.contentsAt store position := by
  funext docId
  rw [contentsSince, MemoryStore.chunk, Nat.sub_self, List.take_zero]
  rfl

theorem contentsSince_extends {later : MemoryStore} (hstore : store.Numbered)
    (hlater : later.Numbered) (h : Extends store later) (hbuilt : ∀ p, built.seq p ≤ position.seq p)
    (hle : ∀ p, position.seq p ≤ store.tail p) :
    view.contentsSince later built position = view.contentsSince store built position := by
  funext docId
  rw [contentsSince, contentsSince, h.partitionOf_eq, h.chunk_eq (hle _),
    contentsAt_extends hstore hlater h fun p => (hbuilt p).trans (hle p)]

/-- The documents of a listing are those of the position behind all events. -/
theorem setAll_listing (hstore : store.WellFormed) :
    Contents.empty.setAll (store.listAll.1.filterMap view.update?)
      = view.contentsSince store (.upTo store.partitions store.tail)
          (.upTo store.partitions store.tail) := by
  rw [contentsSince_self, ← Indexer.setAll_listAll hstore]
  exact setAll_updates (docId_nodup (Indexer.id_of_docs hstore)) fun _ _ => rfl

/-- After a batch the index has followed the events up to the position behind it. -/
theorem setAll_updatesAfter_batch {last : Position} {limit : Nat} {before after : MemoryStore}
    {events : List ChangeEvent} (hbefore : before.Numbered)
    (hbuilt : ∀ p, built.seq p ≤ position.seq p) (hle : ∀ p, position.seq p ≤ before.tail p)
    (h : Batch position position last limit (List.range before.partitions) before after events) :
    (view.contentsSince before built position).setAll (events.filterMap view.updateAfter?)
      = view.contentsSince after built last := by
  have hafter := h.wellFormed.toNumbered
  rw [← contentsSince_extends hbefore hafter h.extends_before hbuilt hle]
  funext docId
  have hevents := h.events_eq
  rw [← h.extends_before.partitions_eq] at hevents
  have hlast : ∀ p, position.seq p ≤ last.seq p := h.precedes.seq_le
  -- The events since the index was built are those up to the earlier position and then those of
  -- the batch, and only one partition has some of the document.
  rw [setAll_updatesAfter, hevents, filter_flatMap_chunk hafter, contentsSince, contentsSince,
    setAll_updatesAfter, setAll_updatesAfter,
    ← MemoryStore.chunk_append_chunk _ _ (hbuilt _) (hlast _), List.filter_append,
    List.filter_append, List.getLast?_append]
  generalize (((after.chunk _ _ _).filter _).filter _).getLast? = newer
  cases newer <;> rfl

theorem contentsSince_eq (docId : String) : view.contentsSince store built position docId
    = ((((store.chunk (store.partitionOf docId) (built.seq (store.partitionOf docId))
          (position.seq (store.partitionOf docId))).filter fun event => event.docId = docId).filter
        fun event => (view.updateAfter? event).isSome).getLast?.map fun event =>
          view.entriesAfter (some event)).getD (view.contentsAt store built docId) :=
  setAll_updatesAfter _ _ docId

/-! ## Entries at the end of the feed -/

/-- The events of a document are those from before an index was built and those since. -/
theorem filter_log_eq (docId : String) {bound : Nat}
    (hbound : bound ≤ store.tail (store.partitionOf docId)) :
    (store.log (store.partitionOf docId)).toList.filter (fun event => event.docId = docId)
      = ((store.log (store.partitionOf docId)).toList.take bound).filter (fun event =>
          event.docId = docId)
        ++ (store.chunk (store.partitionOf docId) bound
            (store.tail (store.partitionOf docId))).filter fun event => event.docId = docId := by
  rw [← List.filter_append, MemoryStore.take_append_chunk _ hbound, MemoryStore.tail,
    ← Array.length_toList, List.take_length]

variable (hstore : store.Numbered) (hbuilt : ∀ p, built.seq p ≤ position.seq p) {docId : String}
  (hend : position.seq (store.partitionOf docId) = store.tail (store.partitionOf docId))
include hstore hbuilt hend

/-- If the map does not fail on the last event of a document, it does not matter where the index was
built. -/
theorem contentsSince_of_settled (h : ∀ event,
    store.lastEvent? docId (store.tail (store.partitionOf docId)) = some event →
      (view.updateAfter? event).isSome) :
    view.contentsSince store built position docId
      = view.entriesAfter (store.lastEvent? docId (store.tail (store.partitionOf docId))) := by
  rw [contentsSince_eq, hend, contentsAt, MemoryStore.lastEvent?_eq hstore]
  rw [MemoryStore.lastEvent?_tail hstore,
    filter_log_eq docId ((hbuilt (store.partitionOf docId)).trans_eq hend)] at h ⊢
  generalize ((store.log _).toList.take _).filter _ = older at h ⊢
  generalize (store.chunk _ _ _).filter _ = newer at h ⊢
  rcases List.eq_nil_or_concat newer with rfl | ⟨init, event, rfl⟩
  · rw [List.append_nil]
    rfl
  · rw [List.concat_eq_append, ← List.append_assoc, List.getLast?_concat] at h ⊢
    have hevent := h event rfl
    rw [getLast?_filter_concat init hevent]
    rfl

/-- Otherwise the document has the entries by the last event on which the map does not fail, or none
if the map failed on the revision of it that the index was built from. -/
theorem contentsSince_eq_or :
    view.contentsSince store built position docId
        = view.entriesAfter (view.lastSettled? store docId) ∨
      view.contentsSince store built position docId = [] ∧
        ∃ event, store.lastEvent? docId (built.seq (store.partitionOf docId)) = some event ∧
          view.updateAfter? event = none := by
  have hsettled : view.lastSettled? store docId
      = (((store.log (store.partitionOf docId)).toList.filter fun event =>
          event.docId = docId).filter fun event => (view.updateAfter? event).isSome).getLast? := by
    rw [lastSettled?, List.filter_filter]
    simp only [Bool.decide_and, Bool.decide_eq_true, Bool.and_comm]
  rw [hsettled, filter_log_eq docId ((hbuilt (store.partitionOf docId)).trans_eq hend),
    contentsSince_eq, hend, contentsAt, MemoryStore.lastEvent?_eq hstore, List.filter_append,
    List.getLast?_append]
  generalize ((store.log _).toList.take _).filter _ = older
  generalize ((store.chunk _ _ _).filter _).filter _ = newer
  cases newer.getLast? with
  | some event => exact .inl rfl
  | none =>
      rcases List.eq_nil_or_concat older with rfl | ⟨init, event, rfl⟩
      · exact .inl rfl
      · rw [List.concat_eq_append, List.getLast?_concat]
        cases hupdate : view.updateAfter? event with
        | some update =>
            rw [getLast?_filter_concat init (by rw [hupdate, Option.isSome])]
            exact .inl rfl
        | none =>
            refine .inr ⟨?_, event, rfl, hupdate⟩
            rw [Option.map_none, Option.getD_none, entriesAfter_some, hupdate]
            rfl

end

end View

end ViewIndex
