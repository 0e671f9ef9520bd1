import ViewIndex.Proofs.Feed.Replay
import ViewIndex.Proofs.Indexer.Publishing

/-!
# Delivery

An index that was built once has for each document the entries after the last event since then that
settles them: an event on which the map fails settles nothing. That is so however the events were
cut into batches. Events may be delivered again, and although the index then passes through older
revisions, it comes back to where it was, provided that all later events are delivered again too.
-/

namespace ViewIndex

open SharedFeed (backing)

/-! ## Events that settle entries -/

/-- Whether an event settles which entries its document has: it deletes the document, or the map
does not fail on it. -/
def View.settles (view : View) (event : ChangeEvent) : Bool :=
  match event.document? with
  | some doc => (view.emissions doc).isOk
  | none => true

/-- The last event of a document behind one number, up to another, that settles its entries. -/
def View.lastSettledWithin? (view : View) (store : MemoryStore) (docId : String)
    (start stop : Nat) : Option ChangeEvent :=
  ((store.log (store.partitionOf docId)).toList.filter fun event =>
    event.docId = docId ∧ start < event.seq ∧ event.seq ≤ stop ∧ view.settles event).getLast?

theorem View.settles_eq (view : View) (event : ChangeEvent) :
    view.settles event = (view.updateAfter? event).isSome := by
  unfold settles updateAfter? evaluateEvent
  cases event.document? with
  | none => rfl
  | some doc =>
      dsimp only
      unfold evaluate
      cases view.emissions doc <;> rfl

namespace View

variable {view : View} {store : MemoryStore}

theorem lastSettledWithin?_eq (hstore : store.Numbered) (docId : String) (start stop : Nat) :
    view.lastSettledWithin? store docId start stop
      = (((store.chunk (store.partitionOf docId) start stop).filter fun event =>
          event.docId = docId).filter fun event => (view.updateAfter? event).isSome).getLast? := by
  rw [lastSettledWithin?, MemoryStore.chunk, ← MemoryStore.filter_seq_log hstore,
    List.filter_filter, List.filter_filter]
  congr 2
  ext event
  simp only [settles_eq]
  grind

/-- Of the events of a later part, the last one that settles entries is that of the whole. -/
theorem lastSettledWithin?_of_le (hstore : store.Numbered) (docId : String) {start mid stop : Nat}
    (hstart : start ≤ mid) (hstop : mid ≤ stop) :
    view.lastSettledWithin? store docId start stop
      = (view.lastSettledWithin? store docId mid stop).or
          (view.lastSettledWithin? store docId start mid) := by
  rw [lastSettledWithin?_eq hstore, lastSettledWithin?_eq hstore, lastSettledWithin?_eq hstore,
    ← store.chunk_append_chunk _ hstart hstop, List.filter_append, List.filter_append,
    List.getLast?_append]

/-- Events of several partitions, mixed in any way, replace the entries of a document by those after
the last event that settles them. -/
theorem setAll_interleaved (hstore : store.Numbered) (contents : Contents) {start stop : Nat → Nat}
    {events : List ChangeEvent}
    (hevents : Interleaves (fun p => store.chunk p (start p) (stop p)) events) (docId : String) :
    contents.setAll (events.filterMap view.updateAfter?) docId
      = ((view.lastSettledWithin? store docId (start (store.partitionOf docId))
          (stop (store.partitionOf docId))).map fun event =>
            view.entriesAfter (some event)).getD (contents docId) := by
  have hdoc := hevents.filter_docId
    (fun p event hevent => MemoryStore.partitionOf_of_mem_chunk hstore hevent) docId
  rw [setAll_updatesAfter, hdoc, lastSettledWithin?_eq hstore]

theorem contentsSince_eq_lastSettledWithin? (hstore : store.Numbered) (built position : Position)
    (docId : String) : view.contentsSince store built position docId
      = ((view.lastSettledWithin? store docId (built.seq (store.partitionOf docId))
          (position.seq (store.partitionOf docId))).map fun event =>
            view.entriesAfter (some event)).getD (view.contentsAt store built docId) := by
  rw [contentsSince_eq, lastSettledWithin?_eq hstore]

end View

namespace Indexer

/-! ## Steps after building -/

/-- The indexers and stores that steps lead to, none of which builds the index anew. Others write
before a step and meanwhile, and the settings may be others from step to step. -/
inductive StepsFrom (first : Indexer) (start : MemoryStore) : Indexer → MemoryStore → Prop where
  | refl : StepsFrom first start first start
  | write {ix : Indexer} {store : MemoryStore} (h : StepsFrom first start ix store)
      (mutation : Mutation) : StepsFrom first start ix (store.mutate mutation)
  | configure {ix : Indexer} {store : MemoryStore} (h : StepsFrom first start ix store)
      (config : Config) : StepsFrom first start { ix with config } store
  | step {φ : Type} [SharedFeed φ] {ix : Indexer} {feed : φ}
      (h : StepsFrom first start ix (backing feed)) (now : Nat)
      (hsame : (ix.step feed now).indexer.rebuilds = ix.rebuilds) :
      StepsFrom first start (ix.step feed now).indexer (backing (ix.step feed now).feed)

section

variable {view : View} {built : Position} {ix : Indexer} {store : MemoryStore}

theorem StepsFrom.follows {first : Indexer} {start : MemoryStore}
    (h : StepsFrom first start ix store) (hstart : start.WellFormed)
    (hfollows : Follows view built first start) :
    store.WellFormed ∧ MemoryStore.Extends start store ∧ Follows view built ix store := by
  induction h with
  | refl => exact ⟨hstart, .refl start, hfollows⟩
  | write _ mutation ih =>
      obtain ⟨hstore, hextends, hfollows⟩ := ih
      have hlater := hstore.mutate mutation
      have hwritten := MemoryStore.extends_mutate hstore mutation
      exact ⟨hlater, hextends.trans hwritten,
        hfollows.extends hstore.toNumbered hlater.toNumbered hwritten⟩
  | configure _ config ih =>
      obtain ⟨hstore, hextends, hfollows⟩ := ih
      exact ⟨hstore, hextends, { hfollows with }⟩
  | @step _ _ ix feed _ now hsame ih =>
      obtain ⟨hstore, hextends, hfollows⟩ := ih
      have hstepped := hfollows.step hstore now
      rw [builtAfter_of_eq hsame] at hstepped
      obtain ⟨hlater, hgrown⟩ := (grows_step ix feed now).spec hstore
      exact ⟨hlater, hextends.trans hgrown, hstepped⟩

theorem Follows.contents_eq_lastSettledWithin? (h : Follows view built ix store)
    (hstore : store.Numbered) (docId : String) : ix.store.current.contents docId
      = ((view.lastSettledWithin? store docId (built.seq (store.partitionOf docId))
          (ix.position.seq (store.partitionOf docId))).map fun event =>
            view.entriesAfter (some event)).getD (view.contentsAt store built docId) := by
  rw [Storage.Checkpoint.contents_eq h.holds, View.contentsSince_eq_lastSettledWithin? hstore]

theorem StepsFrom.writeAll {first : Indexer} {start : MemoryStore}
    (h : StepsFrom first start ix store) (writes : List Mutation) :
    StepsFrom first start ix (store.mutateAll writes) := by
  induction writes generalizing store with
  | nil => exact h
  | cons mutation rest ih => exact ih (h.write mutation)

/-- A step while nobody writes. -/
theorem StepsFrom.stepQuiet {first : Indexer} {start : MemoryStore}
    (h : StepsFrom first start ix store) (now : Nat)
    (hsame : (ix.step store now).indexer.rebuilds = ix.rebuilds) :
    StepsFrom first start (ix.step store now).indexer store := by
  have hbacked : StepsFrom first start ix (backing store) := h
  have hstepped := hbacked.step now hsame
  rw [feed_step] at hstepped
  exact hstepped

/-! ## Delivered batches -/

/-- Batches of events are applied and stored one after the other, whatever position they come
with. -/
inductive Delivers : Indexer → List (List ChangeEvent) → Indexer → Prop where
  | nil (ix : Indexer) : Delivers ix [] ix
  | cons {ix between later : Indexer} {events : List ChangeEvent}
      {rest : List (List ChangeEvent)} {position : Position} {now : Nat}
      (happly : ix.applyEvents events position now = (.ok (), between))
      (hrest : Delivers between rest later) : Delivers ix (events :: rest) later

/-- Nothing fails in an indexer that stores nothing. -/
theorem exists_delivers (h : ix.checkpoint = none) (batches : List (List ChangeEvent)) :
    ∃ later, Delivers ix batches later := by
  induction batches generalizing ix with
  | nil => exact ⟨ix, .nil ix⟩
  | cons events rest ih =>
      have happly := applyEvents_eq h events ix.position 0
      obtain ⟨later, hrest⟩ := @ih (ix.applyEvents events ix.position 0).2 (by rw [happly]; exact h)
      exact ⟨later, .cons (by rw [happly]) hrest⟩

theorem Delivers.holds {batches : List (List ChangeEvent)} {later : Indexer}
    (h : Delivers ix batches later) {contents : Contents} (hholds : ix.store.Holds contents) :
    later.view = ix.view ∧ later.store.Holds
      (contents.setAll (batches.flatten.filterMap ix.view.updateAfter?)) := by
  induction h generalizing contents with
  | nil => exact ⟨rfl, hholds⟩
  | @cons ix between later events rest position now happly _ ih =>
      obtain ⟨tally, checkpoint, since, rfl⟩ := applyEvents_of_ok happly
      obtain ⟨hview, hlater⟩ := ih (hholds.applyBatch (events.filterMap ix.view.updateAfter?)
        (some position))
      refine ⟨hview, ?_⟩
      rw [List.flatten_cons, List.filterMap_append, Contents.setAll, List.foldl_append]
      exact hlater

/-- Of the events between two positions, delivering those behind any numbers again leaves the
entries as they are. -/
def Tolerates (ix : Indexer) (store : MemoryStore) (start stop : Position) : Prop :=
  ∀ again : Nat → Nat, (∀ p, start.seq p ≤ again p ∧ again p ≤ stop.seq p) →
    ∀ batches later, Interleaves (fun p => store.chunk p (again p) (stop.seq p)) batches.flatten →
      Delivers ix batches later → later.store.current.entries = ix.store.current.entries

theorem tolerates_of_holds (hstore : store.Numbered) {start stop : Position}
    (hholds : ix.store.Holds (ix.view.contentsSince store start stop)) :
    ix.Tolerates store start stop := by
  intro again hagain batches later hevents hdelivers
  have hsame : (ix.view.contentsSince store start stop).setAll
        (batches.flatten.filterMap ix.view.updateAfter?)
      = ix.view.contentsSince store start stop := by
    ext1 docId
    rw [View.setAll_interleaved hstore _ hevents, View.contentsSince_eq_lastSettledWithin? hstore,
      View.lastSettledWithin?_of_le hstore docId (hagain _).1 (hagain _).2]
    cases ix.view.lastSettledWithin? store docId (again (store.partitionOf docId))
      (stop.seq (store.partitionOf docId)) <;> rfl
  have hlater := (hdelivers.holds hholds).2
  rw [hsame] at hlater
  exact hlater.entries_unique hholds

/-- Delivering all events since the index was built gives what steps give. -/
theorem Delivers.holds_contentsSince {first : Indexer} (hstore : store.Numbered)
    (hfirst : first.store.Holds (first.view.contentsAt store built)) {position : Position}
    {batches : List (List ChangeEvent)} {later : Indexer}
    (hevents : Interleaves (fun p => store.chunk p (built.seq p) (position.seq p)) batches.flatten)
    (hdelivers : Delivers first batches later) : later.view = first.view ∧
      later.store.Holds (first.view.contentsSince store built position) := by
  obtain ⟨hview, hlater⟩ := hdelivers.holds hfirst
  refine ⟨hview, ?_⟩
  have hsame : (first.view.contentsAt store built).setAll
        (batches.flatten.filterMap first.view.updateAfter?)
      = first.view.contentsSince store built position := by
    ext1 docId
    rw [View.setAll_interleaved hstore _ hevents, View.contentsSince_eq_lastSettledWithin? hstore]
  rw [← hsame]
  exact hlater

/-- An index is built from a store with any history, while others may write; then come any steps
with batches of any size, none of which builds it anew. Each document has the entries after its last
event since then that settles them, or those from which the index started if there is none. The
events taken in since then can be delivered again, from any number of each partition on and in any
batches, and leave the same entries. Delivering all of them in any batches to the index as it was
built gives these entries too, and then any of them can be delivered again. Nothing of this fails in
an indexer that stores nothing. -/
theorem delivery_of_steps {φ : Type} [SharedFeed φ] {feed : φ} {partitions : Nat} {epoch : UInt64}
    {writes : List Mutation}
    (hfeed : backing feed = (MemoryStore.empty partitions epoch).mutateAll writes)
    (start : Indexer) (now : Nat) {ix : Indexer} {store : MemoryStore}
    (hsteps : StepsFrom (start.bulkLoad feed now).indexer
      (backing (start.bulkLoad feed now).feed) ix store) :
    let loaded := (start.bulkLoad feed now).indexer
    (∀ docId, ix.store.current.contents docId
      = ((start.view.lastSettledWithin? store docId
            (loaded.position.seq (store.partitionOf docId))
            (ix.position.seq (store.partitionOf docId))).map fun event =>
          start.view.entriesAfter (some event)).getD (loaded.store.current.contents docId)) ∧
    ix.Tolerates store loaded.position ix.position ∧
    (∀ batches delivered,
      Interleaves (fun p => store.chunk p (loaded.position.seq p) (ix.position.seq p))
        batches.flatten →
      Delivers loaded batches delivered →
        delivered.store.current.entries = ix.store.current.entries ∧
          delivered.Tolerates store loaded.position ix.position) ∧
    ∀ other : Indexer, other.checkpoint = none → ∀ batches, ∃ later,
      Delivers other batches later := by
  intro loaded
  have hwritten : (backing feed).WellFormed := by
    rw [hfeed]
    exact (MemoryStore.mutateAll_spec (MemoryStore.wellFormed_empty partitions epoch) writes).1
  have hlisted := ((grows_bulkLoad start feed now).spec hwritten).1
  have hloaded : Follows start.view loaded.position loaded _ := follows_bulkLoad rfl hwritten now
  obtain ⟨hstore, hextends, hfollows⟩ := hsteps.follows hlisted hloaded
  have hfirst := hloaded.extends hlisted.toNumbered hstore.toNumbered hextends
  have hbuilt := hfirst.holds
  rw [View.contentsSince_self] at hbuilt
  refine ⟨fun docId => ?_, ?_, fun batches delivered hevents hdelivers => ?_,
    fun other hnone => exists_delivers hnone⟩
  · rw [hfollows.contents_eq_lastSettledWithin? hstore.toNumbered,
      Storage.Checkpoint.contents_eq hbuilt]
  · apply tolerates_of_holds hstore.toNumbered
    rw [hfollows.view_eq]
    exact hfollows.holds
  · rw [← hloaded.view_eq] at hbuilt
    obtain ⟨hview, hholds⟩ := hdelivers.holds_contentsSince hstore.toNumbered hbuilt hevents
    refine ⟨?_, ?_⟩
    · rw [hloaded.view_eq] at hholds
      exact hholds.entries_unique hfollows.holds
    · rw [← hview] at hholds
      exact tolerates_of_holds hstore.toNumbered hholds

end

/-! ## A delivery that passes through an older revision -/

namespace Redelivered

/-- Lists the contents of documents, refuses one that is missing, and breaks off on a text. -/
def view : View where
  name := "contents"
  map doc :=
    match doc.content with
    | .null => .refused "no content"
    | .text _ => .crashed none
    | content => .emitted [⟨[.text doc.id], content⟩]

def listed : MemoryStore := (MemoryStore.empty 1 0).mutateAll [.put "a" (.bool true)]

def created : Indexer := create view { batchSize := 3 } none

def loaded : Indexer := (created.bulkLoad listed 0).indexer

/-- The map fails on the last two revisions of the first document, and the second one is deleted. -/
def written : MemoryStore :=
  listed.mutateAll [.put "a" (.bool false), .put "b" (.bool true), .put "a" .null,
    .put "a" (.text ""), .delete "b"]

def stepped : Indexer := ((loaded.step written 1).indexer.step written 2).indexer

theorem stepsFrom_stepped : StepsFrom loaded listed stepped written := by
  have hwritten : StepsFrom loaded listed loaded written := StepsFrom.refl.writeAll _
  exact (hwritten.stepQuiet 1 (by decide +kernel)).stepQuiet 2 (by decide +kernel)

theorem follows_stepped :
    written.WellFormed ∧ Follows view loaded.position stepped written := by
  have hlisted : (backing listed).WellFormed :=
    (MemoryStore.mutateAll_spec (MemoryStore.wellFormed_empty 1 0) _).1
  have hview : created.view = view := rfl
  have hloaded : Follows view loaded.position loaded listed := follows_bulkLoad hview hlisted 0
  obtain ⟨hwritten, -, hfollows⟩ := stepsFrom_stepped.follows hlisted hloaded
  exact ⟨hwritten, hfollows⟩

/-- Behind the first event since the index was built, all are delivered again. -/
def again (p : Nat) : Nat := loaded.position.seq p + if p = 0 then 1 else 0

theorem again_within (p : Nat) :
    loaded.position.seq p ≤ again p ∧ again p ≤ stepped.position.seq p := by
  unfold again
  refine ⟨Nat.le_add_right _ _, ?_⟩
  split
  next hp =>
    subst hp
    decide +kernel
  next =>
    rw [Nat.add_zero]
    exact follows_stepped.2.built_le p

theorem interleaves_again :
    Interleaves (fun p => written.chunk p (again p) (stepped.position.seq p))
      [written.chunk 0 2 3, written.chunk 0 3 6].flatten := by
  have hnone : ∀ p, 1 ≤ p → written.chunk p (again p) (stepped.position.seq p) = [] := by
    intro p hp
    rw [MemoryStore.chunk, MemoryStore.log_of_le follows_stepped.1.toNumbered hp]
    simp
  exact interleaves_of_lt hnone (by decide +kernel) (by decide +kernel)

/-- The first document keeps the entry of the last revision on which the map did not fail. The
second one gets its entry back when the event from before its deletion is delivered again, and loses
it again with the deletion. -/
theorem delivery_of_failed_revisions :
    stepped.store.current.contents "a" = view.entriesAfter ((written.chunk 0 1 2)[0]?) ∧
    (stepped.applyEvents (written.chunk 0 2 3) ∅ 3).2.store.current.entries
      ≠ stepped.store.current.entries ∧
    ∃ later, Delivers stepped [written.chunk 0 2 3, written.chunk 0 3 6] later ∧
      later.store.current.entries = stepped.store.current.entries := by
  have hlisted : backing listed = (MemoryStore.empty 1 0).mutateAll [.put "a" (.bool true)] := rfl
  obtain ⟨hcontents, htolerates, -, hexists⟩ :=
    delivery_of_steps hlisted created 0 stepsFrom_stepped
  obtain ⟨later, hlater⟩ :=
    hexists stepped (by decide +kernel) [written.chunk 0 2 3, written.chunk 0 3 6]
  have hfirst : stepped.store.current.contents "a"
      = ((view.lastSettledWithin? written "a" (loaded.position.seq (written.partitionOf "a"))
          (stepped.position.seq (written.partitionOf "a"))).map fun event =>
            view.entriesAfter (some event)).getD (loaded.store.current.contents "a") :=
    hcontents "a"
  have hlast : view.lastSettledWithin? written "a" (loaded.position.seq (written.partitionOf "a"))
      (stepped.position.seq (written.partitionOf "a")) = (written.chunk 0 1 2)[0]? := by
    decide +kernel
  have hsome : ((written.chunk 0 1 2)[0]?).isSome := by decide +kernel
  obtain ⟨event, hevent⟩ := Option.isSome_iff_exists.mp hsome
  rw [hlast, hevent] at hfirst
  refine ⟨?_, by decide +kernel, later, hlater,
    htolerates again again_within _ later interleaves_again hlater⟩
  rw [hevent]
  exact hfirst

end Redelivered

end Indexer

end ViewIndex
