import ViewIndex.Proofs.Indexer.Evaluate
import ViewIndex.Proofs.Indexer.Reading
import ViewIndex.Proofs.Store.Refinement

/-!
# Currency

An indexer whose view has a total map and that stores nothing on disk is current at its position:
its index has the entries of every document after the last event up to there. Batches move the
position on by the events that they apply, building anew moves it to the end of the feed, and writes
to the documents only append events behind it.
-/

namespace ViewIndex

open MemoryStore (Extends)

namespace View

variable {view : View} {store : MemoryStore}

/-- The entries that each document has by its events up to a position. -/
def contentsAt (view : View) (store : MemoryStore) (position : Position) : Contents := fun docId =>
  view.entriesAfter (store.lastEvent? docId (position.seq (store.partitionOf docId)))

theorem contentsAt_empty (hstore : store.Numbered) : view.contentsAt store ∅ = .empty := by
  funext docId
  rw [contentsAt, MemoryStore.lastEvent?_eq hstore]
  rfl

theorem contentsAt_extends {later : MemoryStore} (hstore : store.Numbered)
    (hlater : later.Numbered) (h : Extends store later) {position : Position}
    (hle : ∀ p, position.seq p ≤ store.tail p) :
    view.contentsAt later position = view.contentsAt store position := by
  funext docId
  rw [contentsAt, contentsAt, h.partitionOf_eq, h.lastEvent?_eq hstore hlater (hle _)]

/-- Only one partition has events of a document. -/
theorem filter_flatMap_chunk (h : store.Numbered) (start stop : Nat → Nat) (docId : String) :
    (((List.range store.partitions).flatMap fun p => store.chunk p (start p) (stop p)).filter
        fun event => event.docId = docId)
      = (store.chunk (store.partitionOf docId) (start (store.partitionOf docId))
          (stop (store.partitionOf docId))).filter fun event => event.docId = docId := by
  have hother : ∀ p ≠ store.partitionOf docId,
      (store.chunk p (start p) (stop p)).filter (fun event => event.docId = docId) = [] := by
    intro p hp
    rw [List.filter_eq_nil_iff]
    intro event hevent hdoc
    rw [← of_decide_eq_true hdoc] at hp
    exact hp (MemoryStore.partitionOf_of_mem_chunk h hevent).symm
  have hmem := List.mem_range.mpr (MemoryStore.partitionOf_lt h docId)
  obtain ⟨first, rest, hrange⟩ := List.append_of_mem hmem
  have hnodup : (List.range store.partitions).Nodup := List.nodup_range
  rw [hrange, List.nodup_middle, List.nodup_cons, List.mem_append, not_or] at hnodup
  obtain ⟨⟨hfirst, hrest⟩, -⟩ := hnodup
  rw [List.filter_flatMap, hrange, List.flatMap_append, List.flatMap_cons,
    List.flatMap_eq_nil_iff.mpr fun p hp => hother p fun heq => hfirst (heq ▸ hp),
    List.flatMap_eq_nil_iff.mpr fun p hp => hother p fun heq => hrest (heq ▸ hp),
    List.nil_append, List.append_nil]

/-- The entries after a batch are those after the events up to the position behind it. -/
theorem setAll_batch {position last : Position} {limit : Nat} {before after : MemoryStore}
    {events : List ChangeEvent} (hbefore : before.Numbered)
    (hle : ∀ p, position.seq p ≤ before.tail p)
    (h : Batch position position last limit (List.range before.partitions) before after events) :
    (view.contentsAt before position).setAll
        (events.map fun event => ⟨event.docId, view.entriesAfter (some event)⟩)
      = view.contentsAt after last := by
  have hafter := h.wellFormed.toNumbered
  rw [← contentsAt_extends hbefore hafter h.extends_before hle]
  funext docId
  have hlt := MemoryStore.partitionOf_lt hafter docId
  rw [h.extends_before.partitions_eq] at hlt
  have hevents := h.events_eq
  rw [← h.extends_before.partitions_eq] at hevents
  -- The events up to the later position are those up to the earlier one and those of the batch.
  rw [setAll_events, hevents, filter_flatMap_chunk hafter, contentsAt, contentsAt,
    MemoryStore.lastEvent?_eq hafter, MemoryStore.lastEvent?_eq hafter,
    ← MemoryStore.take_append_chunk _ (h.le_last _ (List.mem_range.mpr hlt)), List.filter_append,
    List.getLast?_append]
  cases ((after.chunk (after.partitionOf docId) (position.seq (after.partitionOf docId))
    (last.seq (after.partitionOf docId))).filter fun event => event.docId = docId).getLast? <;> rfl

end View

namespace Indexer

variable {φ : Type} [SharedFeed φ] {view : View} {config : Config} {ix : Indexer}

open SharedFeed (backing)

/-- The index has the entries of all documents by the events up to its position, of which the feed
has all, and since the indexer was started it has taken in every partition. -/
structure Current (view : View) (config : Config) (ix : Indexer) (store : MemoryStore) : Prop where
  view_eq : ix.view = view
  config_eq : ix.config = config
  checkpoint : ix.checkpoint = none
  holds : ix.store.Holds (view.contentsAt store ix.position)
  seq_le : ∀ p, ix.position.seq p ≤ store.tail p
  lt_of_mem : ∀ p ∈ ix.position, p < store.partitions
  started : ix.state ≠ .idle → ∀ p < store.partitions, p ∈ ix.position

theorem current_create (view : View) (config : Config) {store : MemoryStore}
    (hstore : store.Numbered) : Current view config (create view config none) store where
  view_eq := rfl
  config_eq := rfl
  checkpoint := rfl
  holds := View.contentsAt_empty hstore ▸ IndexStore.holds_empty view.name view.reducer
  seq_le _ := Nat.zero_le _
  lt_of_mem _ hp := absurd hp Std.ExtTreeMap.not_mem_empty
  started h := absurd rfl h

theorem Current.extends {store later : MemoryStore} (h : Current view config ix store)
    (hstore : store.Numbered) (hlater : later.Numbered) (hextends : Extends store later) :
    Current view config ix later where
  view_eq := h.view_eq
  config_eq := h.config_eq
  checkpoint := h.checkpoint
  holds := by
    rw [View.contentsAt_extends hstore hlater hextends h.seq_le]
    exact h.holds
  seq_le p := (h.seq_le p).trans (hextends.tail_le p)
  lt_of_mem := by
    rw [hextends.partitions_eq]
    exact h.lt_of_mem
  started := by
    rw [hextends.partitions_eq]
    exact h.started

/-! ## Building anew -/

theorem id_of_docs {store : MemoryStore} (hstore : store.WellFormed) (docId : String)
    (doc : Document) (h : store.docs[docId]? = some doc) : doc.id = docId := by
  rw [hstore.docs] at h
  obtain ⟨event, hlast, hdoc⟩ := Option.bind_eq_some_iff.mp h
  rw [ChangeEvent.id_of_document? hdoc]
  have hmem := List.mem_of_getLast? hlast
  exact (of_decide_eq_true (List.mem_filter.mp hmem).2).1

theorem setAll_listAll {store : MemoryStore} (hstore : store.WellFormed) :
    Contents.empty.setAll
        (store.listAll.1.map fun doc : Document => ⟨doc.id, view.entriesOf doc⟩)
      = view.contentsAt store (.upTo store.partitions store.tail) := by
  funext docId
  refine (View.setAll_docs (id_of_docs hstore) docId).trans ?_
  rw [View.contentsAt, Position.seq_upTo _ (MemoryStore.partitionOf_lt hstore.toNumbered docId),
    View.entriesAfter, hstore.docs]

theorem listAll_snd {store : MemoryStore} (hstore : store.Numbered) :
    store.listAll.2 = .upTo store.partitions store.tail := by
  have hlist : (store.logs.mapIdx fun p events => (p, events.size)).toList
      = (List.range store.partitions).map fun p => (p, store.tail p) := by
    apply List.ext_getElem
    · simp [hstore.size_logs]
    · intro p hp hp'
      have hlt : p < store.logs.size := by simpa using hp
      simp [MemoryStore.tail, MemoryStore.log, Array.getD_eq_getD_getElem?, hlt]
  exact congrArg (fun items => Std.ExtTreeMap.ofList items) hlist

theorem load_eq (h : ix.checkpoint = none) (docs : List Document) (position : Position)
    (now : Nat) :
    ix.load docs position now = (.ok (), { ix with
      tally := (View.collectUpdates ix.view.evaluate ix.tally docs).1
      store := ix.store.replaceAll (View.collectUpdates ix.view.evaluate ix.tally docs).2
        position }) := by
  simp [load, discardStored, writeImage, h]

/-- After building anew the index is current at the end of the feed. -/
structure AtTail (view : View) (config : Config) (ix : Indexer) (store : MemoryStore) : Prop
    extends Current view config ix store where
  position_eq : ix.position = .upTo store.partitions store.tail

theorem atTail_load (h : ix.checkpoint = none) (htotal : ix.view.IsTotal) {store : MemoryStore}
    (hstore : store.WellFormed) (now : Nat) :
    AtTail ix.view ix.config (ix.load store.listAll.1 store.listAll.2 now).2 store := by
  have hdistinct : ((store.listAll.1.map fun doc : Document =>
      (⟨doc.id, ix.view.entriesOf doc⟩ : DocUpdate)).map DocUpdate.docId).Nodup := by
    rw [List.map_map]
    exact View.docId_nodup (id_of_docs hstore)
  have hholds := IndexStore.holds_replaceAll ix.store hdistinct
    (.upTo store.partitions store.tail)
  rw [setAll_listAll hstore] at hholds
  rw [load_eq h, View.collectUpdates_snd (View.evaluate_snd htotal), listAll_snd hstore.toNumbered]
  exact {
    view_eq := rfl
    config_eq := rfl
    checkpoint := h
    holds := hholds
    seq_le := Position.seq_upTo_le _ _
    lt_of_mem := fun p hp => (Position.mem_upTo _ _ p).mp hp
    started := fun _ p hp => (Position.mem_upTo _ _ p).mpr hp
    position_eq := rfl }

theorem AtTail.withState {store : MemoryStore} (h : AtTail view config ix store)
    (state : Lifecycle) : AtTail view config { ix with state } store where
  view_eq := h.view_eq
  config_eq := h.config_eq
  checkpoint := h.checkpoint
  holds := h.holds
  seq_le := h.seq_le
  lt_of_mem := h.lt_of_mem
  started _ p hp := by
    change p ∈ ix.position
    rw [h.position_eq]
    exact (Position.mem_upTo _ _ p).mpr hp
  position_eq := h.position_eq

/-- What an operation keeps: it succeeds, meanwhile the store has only grown, and the indexer is
current with it. -/
structure Kept {α : Type} (ix : Indexer) (feed : φ) (outcome : Outcome φ α) : Prop where
  ok : ∃ a, outcome.result = .ok a
  wellFormed : (backing outcome.feed).WellFormed
  extends_feed : Extends (backing feed) (backing outcome.feed)
  current : Current ix.view ix.config outcome.indexer (backing outcome.feed)
  cancelled_eq : outcome.indexer.cancelled = ix.cancelled

/-- What building anew does besides. -/
structure Rebuilt {α : Type} (ix : Indexer) (feed : φ) (outcome : Outcome φ α) : Prop
    extends Kept ix feed outcome where
  atTail : AtTail ix.view ix.config outcome.indexer (backing outcome.feed)

/-- A listing is loaded as the store has it in the end. -/
theorem bulkLoad_eq (ix : Indexer) (feed : φ) (now : Nat) :
    let listing := (backing (ChangeFeed.listAll feed).2).listAll
    ix.bulkLoad feed now = ⟨(ix.load listing.1 listing.2 now).1.mapError .storage,
      (ix.load listing.1 listing.2 now).2, (ChangeFeed.listAll feed).2⟩ := by
  obtain ⟨-, hlist⟩ := SharedFeed.listAll_eq feed
  unfold bulkLoad
  generalize ChangeFeed.listAll feed = answer at hlist ⊢
  obtain ⟨result, final⟩ := answer
  dsimp only at hlist ⊢
  rw [hlist]

theorem rebuilt_bulkLoad (ix : Indexer) (h : ix.checkpoint = none) (htotal : ix.view.IsTotal)
    {feed : φ} (hfeed : (backing feed).WellFormed) (now : Nat) :
    Rebuilt ix feed (ix.bulkLoad feed now) := by
  obtain ⟨hwell, hextends⟩ := SharedFeed.listAll_spec hfeed
  have hload := load_eq h (backing (ChangeFeed.listAll feed).2).listAll.1
    (backing (ChangeFeed.listAll feed).2).listAll.2 now
  have htail := atTail_load h htotal hwell now
  rw [bulkLoad_eq]
  exact {
    ok := ⟨(), congrArg (fun result => result.1.mapError IndexerError.storage) hload⟩
    wellFormed := hwell
    extends_feed := hextends
    current := htail.toCurrent
    cancelled_eq := congrArg (fun result => result.2.cancelled) hload
    atTail := htail }

theorem rebuilt_rebuild (ix : Indexer) (h : ix.checkpoint = none) (htotal : ix.view.IsTotal)
    {feed : φ} (hfeed : (backing feed).WellFormed) (now : Nat) :
    Rebuilt ix feed (ix.rebuild feed now) := by
  have hbulk := rebuilt_bulkLoad
    { ix with state := .rebuilding, rebuilds := ix.rebuilds + 1 } h htotal hfeed now
  have htail := hbulk.atTail.withState (stateAfterRebuild ix.state)
  exact {
    ok := hbulk.ok
    wellFormed := hbulk.wellFormed
    extends_feed := hbulk.extends_feed
    current := htail.toCurrent
    cancelled_eq := hbulk.cancelled_eq
    atTail := htail }

end Indexer

end ViewIndex
