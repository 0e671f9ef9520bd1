import Mathlib.Data.List.Induction
import ViewIndex.Proofs.Indexer.Currency

/-!
# Replaying a feed

The documents of a store and the logs of its partitions are written together. Whoever reads a
partition page by page gets each of its events once and in order, and whoever applies the events of
all partitions, mixed in any way that keeps their order, ends with the documents of the store.
-/

namespace ViewIndex

/-- One list with the events of all partitions that has those of each partition in their order. -/
def Interleaves (logs : Nat → List ChangeEvent) (events : List ChangeEvent) : Prop :=
  ∀ p, events.filter (fun event => event.partition = p) = logs p

/-- The events of a document lie in one partition, so that mixing partitions leaves their order. -/
theorem Interleaves.filter_docId {logs : Nat → List ChangeEvent} {events : List ChangeEvent}
    (h : Interleaves logs events) {partitionOf : String → Nat}
    (hlogs : ∀ p, ∀ event ∈ logs p, partitionOf event.docId = p) (docId : String) :
    events.filter (fun event => event.docId = docId)
      = (logs (partitionOf docId)).filter fun event => event.docId = docId := by
  rw [← h (partitionOf docId), List.filter_filter]
  apply List.filter_congr
  intro event hevent
  have hlog : event ∈ logs event.partition := by
    rw [← h event.partition]
    exact List.mem_filter.mpr ⟨hevent, decide_eq_true rfl⟩
  have hpartition := hlogs event.partition event hlog
  by_cases hdoc : event.docId = docId
  · subst hdoc
    simp [hpartition]
  · simp [hdoc]

theorem interleaves_of_lt {logs : Nat → List ChangeEvent} {events : List ChangeEvent}
    {partitions : Nat} (hnone : ∀ p, partitions ≤ p → logs p = [])
    (hlt : ∀ event ∈ events, event.partition < partitions)
    (hsame : ∀ p < partitions, events.filter (fun event => event.partition = p) = logs p) :
    Interleaves logs events := by
  intro p
  by_cases hp : p < partitions
  · exact hsame p hp
  · rw [hnone p (Nat.le_of_not_lt hp), List.filter_eq_nil_iff]
    intro event hevent heq
    exact hp (of_decide_eq_true heq ▸ hlt event hevent)

/-- What an event does to documents: it stores one as the event left it, or removes one. -/
def ChangeEvent.apply (docs : Std.ExtTreeMap String Document) (event : ChangeEvent) :
    Std.ExtTreeMap String Document :=
  match event.document? with
  | some doc => docs.insert doc.id doc
  | none => docs.erase event.docId

theorem ChangeEvent.getElem?_apply (docs : Std.ExtTreeMap String Document) (event : ChangeEvent)
    (docId : String) :
    (event.apply docs)[docId]? = if event.docId = docId then event.document? else docs[docId]? := by
  cases hchange : event.change with
  | upsert content => simp [apply, document?, hchange, Std.ExtTreeMap.getElem?_insert]
  | delete => simp [apply, document?, hchange, Std.ExtTreeMap.getElem?_erase]

/-- The documents after events that are applied one after the other, starting from none. -/
def replay (events : List ChangeEvent) : Std.ExtTreeMap String Document :=
  events.foldl ChangeEvent.apply ∅

theorem getElem?_replay (events : List ChangeEvent) (docId : String) :
    (replay events)[docId]?
      = (events.filter fun event => event.docId = docId).getLast?.bind ChangeEvent.document? := by
  induction events using List.reverseRecOn with
  | nil => exact Std.ExtTreeMap.getElem?_empty
  | append_singleton events event ih =>
      have hstep : replay (events ++ [event]) = event.apply (replay events) := by
        rw [replay, List.foldl_append]
        rfl
      rw [hstep, ChangeEvent.getElem?_apply, ih, List.filter_append]
      by_cases hdoc : event.docId = docId <;> simp [hdoc]

namespace MemoryStore

variable {store : MemoryStore}

/-! ## Logs -/

/-- Every event names the partition that it lies in. -/
def Labelled (store : MemoryStore) : Prop :=
  ∀ p, ∀ event ∈ store.log p, event.partition = p

theorem labelled_append (h : store.Numbered) (hlabelled : store.Labelled) (docId revision : String)
    (change : Change) (docs : Std.ExtTreeMap String Document) :
    Labelled { store.append docId revision change with docs } := by
  intro p event hevent
  change event ∈ (store.append docId revision change).log p at hevent
  rw [log_append h] at hevent
  split at hevent
  next =>
    rcases Array.mem_push.mp hevent with hevent | rfl
    · exact hlabelled p event hevent
    · rfl
  next => exact hlabelled p event hevent

theorem Labelled.mutate (hlabelled : store.Labelled) (h : store.Numbered) (mutation : Mutation) :
    (store.mutate mutation).Labelled := by
  cases mutation with
  | put docId content => exact labelled_append h hlabelled docId _ _ _
  | delete docId =>
      change (store.delete docId).1.Labelled
      unfold delete
      split
      next => exact hlabelled
      next => exact labelled_append h hlabelled docId _ _ _

theorem Labelled.mutateAll (hlabelled : store.Labelled) (h : store.WellFormed)
    (writes : List Mutation) : (store.mutateAll writes).Labelled := by
  induction writes generalizing store with
  | nil => exact hlabelled
  | cons mutation rest ih => exact ih (hlabelled.mutate h.toNumbered mutation) (h.mutate mutation)

theorem log_of_le (h : store.Numbered) {p : Nat} (hp : store.partitions ≤ p) :
    store.log p = #[] := by
  have hnone : store.logs[p]? = none := by
    rw [Array.getElem?_eq_none_iff, h.size_logs]
    exact hp
  rw [log, Array.getD_eq_getD_getElem?, hnone, Option.getD_none]

theorem map_seq_log (h : store.Numbered) (p : Nat) :
    (store.log p).toList.map ChangeEvent.seq = List.range' 1 (store.tail p) := by
  apply List.ext_getElem
  · rw [List.length_map, List.length_range', tail, Array.length_toList]
  · intro i hi _
    rw [List.length_map] at hi
    rw [List.getElem_map, List.getElem_range', (h.event p i _ (List.getElem?_eq_getElem hi)).1]
    omega

/-! ## Pages -/

/-- Reads a partition in pages of at most the given lengths, each behind the last event of the one
before. -/
def readPages (store : MemoryStore) (p : Nat) :
    (after : Nat) → (limits : List Nat) → Except FeedError (List ChangeEvent)
  | _, [] => .ok []
  | after, limit :: rest => do
      let events ← store.read p after limit
      let later ← store.readPages p ((events.getLast?.map ChangeEvent.seq).getD after) rest
      return events ++ later

/-- A page ends as many events behind its start as it has. -/
theorem lastSeq_chunk (h : store.Numbered) (p start stop : Nat) :
    ((store.chunk p start stop).getLast?.map ChangeEvent.seq).getD start
      = start + (store.chunk p start stop).length := by
  cases hlast : (store.chunk p start stop).getLast? with
  | some event => exact seq_of_getLast? h hlast
  | none => rw [List.getLast?_eq_none_iff.mp hlast, List.length_nil]; rfl

theorem readPages_eq (h : store.Numbered) {p : Nat} (hp : p < store.partitions) (after : Nat)
    (limits : List Nat) :
    store.readPages p after limits = .ok (((store.log p).toList.drop after).take limits.sum) := by
  induction limits generalizing after with
  | nil => rfl
  | cons limit rest ih =>
      have hpage : store.chunk p after (after + limit)
          = ((store.log p).toList.drop after).take limit := by
        rw [chunk, Nat.add_sub_cancel_left]
      -- A page that is not full has all there is, so the next one could as well start behind it.
      have hnext : (store.log p).toList.drop
            (after + (store.chunk p after (after + limit)).length)
          = ((store.log p).toList.drop after).drop limit := by
        rw [hpage, List.length_take, List.drop_drop.symm, List.drop_eq_drop_iff]
        omega
      rw [readPages, read_eq h hp]
      change (store.readPages p _ rest >>= fun later => _) = _
      rw [lastSeq_chunk h, ih, hnext, hpage, List.sum_cons, List.take_add]
      rfl

/-- A page of at least one event gets on unless nothing is left, so that with as many pages as there
are events nothing is left. -/
theorem readPages_eq_drop (h : store.Numbered) {p : Nat} (hp : p < store.partitions) {after : Nat}
    {limits : List Nat} (hlimits : ∀ limit ∈ limits, 1 ≤ limit)
    (henough : store.tail p - after ≤ limits.length) :
    store.readPages p after limits = .ok ((store.log p).toList.drop after) := by
  have hsum := List.length_le_sum_of_one_le limits hlimits
  rw [readPages_eq h hp, List.take_of_length_le]
  rw [List.length_drop, Array.length_toList]
  exact henough.trans hsum

/-! ## Histories -/

theorem filter_interleaved (h : store.Numbered) {events : List ChangeEvent}
    (hevents : Interleaves (fun p => (store.log p).toList) events) (docId : String) :
    events.filter (fun event => event.docId = docId)
      = (store.log (store.partitionOf docId)).toList.filter fun event => event.docId = docId := by
  apply hevents.filter_docId
  intro p event hevent
  obtain ⟨i, hget⟩ := List.getElem?_of_mem hevent
  exact (h.event p i event hget).2

theorem replay_eq_docs (h : store.WellFormed) {events : List ChangeEvent}
    (hevents : Interleaves (fun p => (store.log p).toList) events) :
    replay events = store.docs := by
  apply Std.ExtTreeMap.ext_getElem?
  intro docId
  rw [getElem?_replay, filter_interleaved h.toNumbered hevents, h.docs,
    lastEvent?_tail h.toNumbered]

/-- After any writes to an empty store, the events of each partition are numbered from one without
gaps, name it, and are all those of the documents that belong to it; deleting a document that is not
there adds none. Reading a partition in pages, each behind the last event of the one before, gives
the events behind the start once each and in order, as many as the pages have room for. Applying all
events, partitions mixed in any way, gives the documents that are listed, and the position of the
listing is behind every event. -/
theorem replay_of_writes (partitions : Nat) (epoch : UInt64) (writes : List Mutation) :
    let store := (empty partitions epoch).mutateAll writes
    (∀ docId, store.get? docId = none → store.delete docId = (store, none)) ∧
    (∀ p, (store.log p).toList.map ChangeEvent.seq = List.range' 1 (store.tail p) ∧
      ∀ event ∈ store.log p, event.partition = p ∧ store.partitionOf event.docId = p) ∧
    (∀ p < store.partitions, ∀ after limits,
      store.readPages p after limits = .ok (((store.log p).toList.drop after).take limits.sum) ∧
      ((∀ limit ∈ limits, 1 ≤ limit) → store.tail p - after ≤ limits.length →
        store.readPages p after limits = .ok ((store.log p).toList.drop after))) ∧
    (∀ events, Interleaves (fun p => (store.log p).toList) events →
      replay events = store.docs ∧ (replay events).toList.map Prod.snd = store.listAll.1) ∧
    store.listAll.2 = ChangeFeed.tailPosition store := by
  intro store
  have hempty := wellFormed_empty partitions epoch
  have hstore : store.WellFormed := (mutateAll_spec hempty writes).1
  have hlabelled : store.Labelled := by
    apply Labelled.mutateAll _ hempty
    intro p event hevent
    rw [log_empty] at hevent
    cases Array.not_mem_empty event hevent
  refine ⟨fun docId hnone => ?_, fun p => ⟨map_seq_log hstore.toNumbered p, fun event hevent => ?_⟩,
    fun p hp after limits => ?_, fun events hevents => ?_, ?_⟩
  · rw [delete, hnone]
  · obtain ⟨i, hget⟩ := List.getElem?_of_mem (Array.mem_toList_iff.mpr hevent)
    exact ⟨hlabelled p event hevent, (hstore.event p i event hget).2⟩
  · exact ⟨readPages_eq hstore.toNumbered hp after limits, readPages_eq_drop hstore.toNumbered hp⟩
  · have hdocs := replay_eq_docs hstore hevents
    exact ⟨hdocs, by rw [hdocs, listAll]⟩
  · rw [Indexer.listAll_snd hstore.toNumbered]
    exact (SharedFeed.tailPosition_eq store).symm

/-- A document that is deleted and written again, with an event of another partition in between. -/
theorem replay_of_rewritten :
    let writes : List Mutation :=
      [.put "a" .null, .put "d" .null, .delete "a", .put "a" (.bool true)]
    let store := (empty 2 0).mutateAll writes
    let events := (store.log 1).toList.take 1 ++ (store.log 0).toList
      ++ (store.log 1).toList.drop 1
    (events.map fun event => (event.docId, event.isDelete))
        = [("a", false), ("d", false), ("a", true), ("a", false)] ∧
      (replay events).toList.map Prod.snd = store.listAll.1 ∧
      store.readPages 1 1 [1, 1] = .ok ((store.log 1).toList.drop 1) := by
  intro writes store events
  have hstore := (mutateAll_spec (wellFormed_empty 2 0) writes).1.toNumbered
  have hnone : ∀ p, 2 ≤ p → (store.log p).toList = [] := fun p hp =>
    congrArg Array.toList (log_of_le hstore hp)
  have hevents : Interleaves (fun p => (store.log p).toList) events :=
    interleaves_of_lt hnone (by decide +kernel) (by decide +kernel)
  obtain ⟨-, -, hpages, hreplay, -⟩ := replay_of_writes 2 0 writes
  exact ⟨by decide +kernel, (hreplay events hevents).2,
    (hpages 1 (by decide +kernel) 1 [1, 1]).2 (by decide) (by decide +kernel)⟩

end MemoryStore

end ViewIndex
