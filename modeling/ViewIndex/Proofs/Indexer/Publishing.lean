import ViewIndex.Proofs.Indexer.Following
import ViewIndex.Proofs.Indexer.Settling
import ViewIndex.Proofs.Indexer.Storing

/-!
# What operations publish

An operation may fail halfway, after the index was changed or before. Either way the index has the
entries that documents have by its position, because it only ever publishes a whole listing or a
whole batch. What is stored makes no difference to that, except when an indexer starts from it.
-/

namespace ViewIndex.Indexer

open MemoryStore (Extends)
open SharedFeed (backing)
open Storage (Checkpoint Recovered)

variable {ix : Indexer} {now : Nat}

/-! ## Parts of operations -/

theorem discardStored_snd (ix : Indexer) :
    ∃ checkpoint, ix.discardStored.2 = { ix with checkpoint } := by
  unfold discardStored
  split
  next => exact ⟨_, rfl⟩
  next => exact ⟨_, rfl⟩

theorem writeImage_snd (ix : Indexer) (now : Nat) : ∃ checkpoint since,
    (ix.writeImage now).2 = { ix with checkpoint, batchesSinceSnapshot := since } := by
  unfold writeImage
  split
  next => exact ⟨_, _, rfl⟩
  next => split <;> exact ⟨_, _, rfl⟩

theorem load_snd (ix : Indexer) (docs : List Document) (position : Position) (now : Nat) :
    ∃ tally checkpoint since, (ix.load docs position now).2 = { ix with
      tally
      store := ix.store.replaceAll (docs.filterMap ix.view.update?) position
      checkpoint
      batchesSinceSnapshot := since } := by
  unfold load
  dsimp only
  rw [View.collectUpdates_eq_filterMap View.evaluate_eq_update?]
  generalize hloaded : ({ ix with
    tally := (View.collectUpdates ix.view.evaluate ix.tally docs).1
    store := ix.store.replaceAll (docs.filterMap ix.view.update?) position } : Indexer) = loaded
  obtain ⟨checkpoint, hdiscard⟩ := discardStored_snd loaded
  split
  next discarded heq =>
    rw [heq] at hdiscard
    obtain rfl : discarded = { loaded with checkpoint } := hdiscard
    obtain ⟨written, since, hwrite⟩ := writeImage_snd { loaded with checkpoint } now
    rw [hwrite, ← hloaded]
    exact ⟨_, _, _, rfl⟩
  next e discarded heq =>
    rw [heq] at hdiscard
    obtain rfl : discarded = { loaded with checkpoint } := hdiscard
    rw [← hloaded]
    exact ⟨_, _, _, rfl⟩

/-- A batch that cannot be logged is not published. -/
theorem commit_cases (ix : Indexer) (updates : List DocUpdate) (position : Position) (now : Nat) :
    (∃ e, ix.commit updates position now = (.error e, ix)) ∨
      ∃ checkpoint since, (ix.commit updates position now).2 = { ix with
        store := (ix.store.applyBatch updates (some position)).1
        checkpoint
        batchesSinceSnapshot := since } := by
  unfold commit
  split
  next e _ => exact .inl ⟨e, rfl⟩
  next =>
    right
    dsimp only
    split
    next => exact ⟨_, _, rfl⟩
    next =>
      split
      next =>
        obtain ⟨checkpoint, since, hwrite⟩ := writeImage_snd _ now
        rw [hwrite]
        exact ⟨_, _, rfl⟩
      next => exact ⟨_, _, rfl⟩

/-- The index after a batch of events was applied to it or was not. -/
structure Applied (ix : Indexer) (events : List ChangeEvent) (position : Position)
    (later : Indexer) : Prop where
  view_eq : later.view = ix.view
  rebuilds_eq : later.rebuilds = ix.rebuilds
  store_eq : later.store = ix.store ∨ later.store
    = (ix.store.applyBatch (events.filterMap ix.view.updateAfter?) (some position)).1

theorem applied_applyEvents (ix : Indexer) (events : List ChangeEvent) (position : Position)
    (now : Nat) : Applied ix events position (ix.applyEvents events position now).2 := by
  unfold applyEvents
  dsimp only
  rw [View.collectUpdates_eq_filterMap View.evaluateEvent_eq_updateAfter?]
  generalize (View.collectUpdates ix.view.evaluateEvent ix.tally events).1 = tally
  have hcommit :=
    commit_cases { ix with tally } (events.filterMap ix.view.updateAfter?) position now
  split
  next e later heq =>
    rw [heq] at hcommit
    rcases hcommit with ⟨_, heq⟩ | ⟨checkpoint, since, rfl⟩
    · obtain rfl := (Prod.mk.inj heq).2
      exact ⟨rfl, rfl, .inl rfl⟩
    · exact ⟨rfl, rfl, .inr rfl⟩
  next later heq =>
    rw [heq] at hcommit
    rcases hcommit with ⟨_, heq⟩ | ⟨checkpoint, since, rfl⟩
    · cases (Prod.mk.inj heq).1
    · exact ⟨rfl, rfl, .inr rfl⟩

/-- What a batch of events that was applied and stored changes. -/
theorem applyEvents_of_ok {events : List ChangeEvent} {position : Position} {later : Indexer}
    (h : ix.applyEvents events position now = (.ok (), later)) : ∃ tally checkpoint since,
      later = { ix with
        tally
        store := (ix.store.applyBatch (events.filterMap ix.view.updateAfter?) (some position)).1
        checkpoint
        batchesSinceSnapshot := since
        eventsApplied := ix.eventsApplied + events.length
        batches := ix.batches + 1
        lastBatchSize := events.length } := by
  unfold applyEvents at h
  dsimp only at h
  rw [View.collectUpdates_eq_filterMap View.evaluateEvent_eq_updateAfter?] at h
  generalize (View.collectUpdates ix.view.evaluateEvent ix.tally events).1 = tally at h
  have hcommit :=
    commit_cases { ix with tally } (events.filterMap ix.view.updateAfter?) position now
  split at h
  next => cases (Prod.mk.inj h).1
  next committed heq =>
    obtain rfl := (Prod.mk.inj h).2
    rw [heq] at hcommit
    rcases hcommit with ⟨_, heq⟩ | ⟨checkpoint, since, rfl⟩
    · cases (Prod.mk.inj heq).1
    · exact ⟨_, _, _, rfl⟩

/-! ## What others write meanwhile -/

section

variable {φ : Type} [SharedFeed φ]

/-- The store of a feed that an operation leaves behind is the one from before with what others have
written since. -/
def Grows (feed later : φ) : Prop :=
  ∃ writes, backing later = (backing feed).mutateAll writes

theorem Grows.refl (feed : φ) : Grows feed feed := ⟨[], rfl⟩

theorem Grows.trans {a b c : φ} (hab : Grows a b) (hbc : Grows b c) : Grows a c := by
  obtain ⟨first, hfirst⟩ := hab
  obtain ⟨second, hsecond⟩ := hbc
  refine ⟨first ++ second, ?_⟩
  rw [hsecond, hfirst, MemoryStore.mutateAll, MemoryStore.mutateAll, MemoryStore.mutateAll,
    List.foldl_append]

theorem Grows.spec {feed later : φ} (h : Grows feed later) (hfeed : (backing feed).WellFormed) :
    (backing later).WellFormed ∧ Extends (backing feed) (backing later) := by
  obtain ⟨writes, hwrites⟩ := h
  rw [hwrites]
  exact MemoryStore.mutateAll_spec hfeed writes

theorem grows_readPartitions (position : Position) (limit : Nat) (partitions : List Nat)
    (next : Position) (feed : φ) :
    Grows feed (readPartitions position limit partitions next feed).2 := by
  induction partitions generalizing next feed with
  | nil => exact .refl feed
  | cons p rest ih =>
      have hgrows : Grows feed (ChangeFeed.read feed p (position.seq p) limit).2 :=
        (SharedFeed.read_eq feed p (position.seq p) limit).1
      cases hread : ChangeFeed.read feed p (position.seq p) limit with
      | mk result between =>
          rw [hread] at hgrows
          cases result with
          | error e =>
              rw [readPartitions, hread]
              exact hgrows
          | ok events =>
              have hrest := ih (next.behind p events) between
              rw [readPartitions_of_read hread]
              split
              next heq =>
                rw [heq] at hrest
                exact hgrows.trans hrest
              next heq =>
                rw [heq] at hrest
                exact hgrows.trans hrest

theorem grows_bulkLoad (ix : Indexer) (feed : φ) (now : Nat) :
    Grows feed (ix.bulkLoad feed now).feed := by
  rw [bulkLoad_eq]
  exact (SharedFeed.listAll_eq feed).1

theorem grows_rebuild (ix : Indexer) (feed : φ) (now : Nat) :
    Grows feed (ix.rebuild feed now).feed :=
  grows_bulkLoad { ix with state := .rebuilding, rebuilds := ix.rebuilds + 1 } feed now

theorem grows_verifyAndRepair (ix : Indexer) (feed : φ) (now : Nat) :
    Grows feed (ix.verifyAndRepair feed now).feed := by
  unfold verifyAndRepair
  split
  next => exact .refl feed
  next => exact grows_rebuild ix feed now

theorem grows_step_of_read {ix : Indexer} {feed final : φ} {reading : Reading}
    (hread : ix.readBatch feed = (reading, final)) (now : Nat) :
    Grows final (ix.step feed now).feed := by
  unfold step
  rw [hread]
  cases reading with
  | error e => exact .refl final
  | ok batch =>
      dsimp only
      split
      next => exact .refl final
      next =>
        split
        next => exact .refl final
        next =>
          split
          next => exact grows_verifyAndRepair _ final now
          next => exact .refl final

theorem grows_step (ix : Indexer) (feed : φ) (now : Nat) : Grows feed (ix.step feed now).feed :=
  (grows_readPartitions _ _ _ _ _).trans
    (grows_step_of_read (Prod.eta (ix.readBatch feed)).symm now)

theorem grows_startUp (ix : Indexer) (feed : φ) (now : Nat) :
    Grows feed (ix.startUp feed now).feed := by
  unfold startUp
  dsimp only
  split
  next => exact .refl feed
  next => exact grows_bulkLoad _ feed now
  next => exact .refl feed

/-! ## Loops of steps -/

/-- What a step keeps, a loop of steps keeps. -/
theorem stepAll_keeps {P : Indexer → φ → Prop}
    (hstep : ∀ ix feed, P ix feed → P (ix.step feed now).indexer (ix.step feed now).feed)
    (fuel : Nat) {feed : φ} (h : P ix feed) :
    P (stepAll now fuel ix feed).indexer (stepAll now fuel ix feed).feed := by
  induction fuel generalizing ix feed with
  | zero => exact h
  | succ fuel ih =>
      have hlater := hstep ix feed h
      rw [stepAll]
      split
      next => exact h
      next =>
        split
        next heq => rwa [heq] at hlater
        next heq => rwa [heq] at hlater
        next heq =>
          rw [heq] at hlater
          exact ih hlater

/-- What starting and a step keep, catching up keeps. -/
theorem catchUp_keeps {P : Indexer → φ → Prop}
    (hstart : ∀ ix feed, P ix feed → P (ix.startUp feed now).indexer (ix.startUp feed now).feed)
    (hstep : ∀ ix feed, P ix feed → P (ix.step feed now).indexer (ix.step feed now).feed)
    {feed : φ} (h : P ix feed) :
    P (ix.catchUp feed now).indexer (ix.catchUp feed now).feed := by
  by_cases hidle : ix.state = .idle
  · have hstarted := hstart ix feed h
    rw [catchUp, if_pos hidle]
    generalize ix.startUp feed now = started at hstarted
    obtain ⟨result, later, final⟩ := started
    cases result with
    | error e => exact hstarted
    | ok _ =>
        dsimp only
        exact stepAll_keeps hstep _ hstarted
  · rw [catchUp_of_started hidle]
    exact stepAll_keeps hstep _ h

end

/-! ## What the index has -/

/-- The index has the entries of documents by its position, after it was built at another one. -/
structure Follows (view : View) (built : Position) (ix : Indexer) (store : MemoryStore) :
    Prop where
  view_eq : ix.view = view
  holds : ix.store.Holds (view.contentsSince store built ix.position)
  built_le : ∀ p, built.seq p ≤ ix.position.seq p
  seq_le : ∀ p, ix.position.seq p ≤ store.tail p
  lt_of_mem : ∀ p ∈ ix.position, p < store.partitions

/-- Where an index was last built, after an operation that may have built it anew. -/
def builtAfter (ix later : Indexer) (built : Position) : Position :=
  if later.rebuilds = ix.rebuilds then built else later.position

section

variable {φ : Type} [SharedFeed φ] {view : View} {built : Position} {store : MemoryStore}

theorem follows_create (view : View) (config : Config) (checkpoint : Option Checkpoint)
    (hstore : store.Numbered) : Follows view ∅ (create view config checkpoint) store where
  view_eq := rfl
  holds := by
    change (IndexStore.empty view.name view.reducer).Holds (view.contentsSince store ∅ ∅)
    rw [View.contentsSince_self, View.contentsAt_empty hstore]
    exact IndexStore.holds_empty view.name view.reducer
  built_le p := Nat.le_refl _
  seq_le p := Nat.zero_le _
  lt_of_mem p hp := absurd hp Std.ExtTreeMap.not_mem_empty

theorem Follows.extends {later : MemoryStore} (h : Follows view built ix store)
    (hstore : store.Numbered) (hlater : later.Numbered) (hextends : Extends store later) :
    Follows view built ix later where
  view_eq := h.view_eq
  holds := by
    rw [View.contentsSince_extends hstore hlater hextends h.built_le h.seq_le]
    exact h.holds
  built_le := h.built_le
  seq_le p := (h.seq_le p).trans (hextends.tail_le p)
  lt_of_mem := by
    rw [hextends.partitions_eq]
    exact h.lt_of_mem

theorem follows_load (ix : Indexer) (hstore : store.WellFormed) (now : Nat) :
    Follows ix.view (ix.load store.listAll.1 store.listAll.2 now).2.position
      (ix.load store.listAll.1 store.listAll.2 now).2 store := by
  have hdistinct : (store.listAll.1.map Document.id).Nodup := View.docId_nodup (id_of_docs hstore)
  have hholds := IndexStore.holds_replaceAll ix.store (View.nodup_updates ix.view hdistinct)
    store.listAll.2
  rw [View.setAll_listing hstore] at hholds
  obtain ⟨tally, checkpoint, since, hload⟩ :=
    load_snd ix store.listAll.1 store.listAll.2 now
  rw [hload]
  have hposition := listAll_snd hstore.toNumbered
  rw [hposition] at hholds ⊢
  exact {
    view_eq := rfl
    holds := hholds
    built_le := fun p => Nat.le_refl _
    seq_le := Position.seq_upTo_le _ _
    lt_of_mem := fun p hp => (Position.mem_upTo _ _ p).mp hp }

theorem follows_bulkLoad (hview : ix.view = view) {feed : φ} (hfeed : (backing feed).WellFormed)
    (now : Nat) :
    Follows view (ix.bulkLoad feed now).indexer.position (ix.bulkLoad feed now).indexer
      (backing (ix.bulkLoad feed now).feed) := by
  subst hview
  rw [bulkLoad_eq]
  exact follows_load ix (SharedFeed.listAll_spec hfeed).1 now

theorem rebuilds_bulkLoad (ix : Indexer) (feed : φ) (now : Nat) :
    (ix.bulkLoad feed now).indexer.rebuilds = ix.rebuilds := by
  rw [bulkLoad_eq]
  obtain ⟨tally, checkpoint, since, hload⟩ := load_snd ix
    (backing (ChangeFeed.listAll feed).2).listAll.1 (backing (ChangeFeed.listAll feed).2).listAll.2
    now
  have hcount := congrArg Indexer.rebuilds hload
  exact hcount

theorem builtAfter_of_eq {later : Indexer} (h : later.rebuilds = ix.rebuilds) (built : Position) :
    ix.builtAfter later built = built := if_pos h

theorem builtAfter_rebuild (ix : Indexer) (feed : φ) (now : Nat) (built : Position) :
    ix.builtAfter (ix.rebuild feed now).indexer built = (ix.rebuild feed now).indexer.position := by
  apply if_neg
  have hcount : (ix.rebuild feed now).indexer.rebuilds = ix.rebuilds + 1 :=
    rebuilds_bulkLoad { ix with state := .rebuilding, rebuilds := ix.rebuilds + 1 } feed now
  rw [hcount]
  exact Nat.succ_ne_self ix.rebuilds

theorem follows_rebuild (hview : ix.view = view) {feed : φ} (hfeed : (backing feed).WellFormed)
    (now : Nat) (built : Position) :
    Follows view (ix.builtAfter (ix.rebuild feed now).indexer built) (ix.rebuild feed now).indexer
      (backing (ix.rebuild feed now).feed) := by
  have hstarted : { ix with state := .rebuilding, rebuilds := ix.rebuilds + 1 }.view = view := hview
  rw [builtAfter_rebuild]
  exact { follows_bulkLoad hstarted hfeed now with }

theorem Follows.verifyAndRepair {feed : φ} (h : Follows view built ix (backing feed))
    (hfeed : (backing feed).WellFormed) (now : Nat) :
    Follows view (ix.builtAfter (ix.verifyAndRepair feed now).indexer built)
      (ix.verifyAndRepair feed now).indexer (backing (ix.verifyAndRepair feed now).feed) := by
  unfold Indexer.verifyAndRepair
  split
  next =>
    rw [builtAfter_of_eq rfl]
    exact h
  next =>
    exact follows_rebuild h.view_eq hfeed now built

theorem Follows.applied {before after : MemoryStore} (h : Follows view built ix before)
    (hbefore : before.WellFormed) {last : Position} {limit : Nat} {events : List ChangeEvent}
    (hbatch : Batch ix.position ix.position last limit (List.range before.partitions) before after
      events) {later : Indexer} (happlied : Applied ix events last later) :
    Follows view built later after := by
  have hafter := hbatch.wellFormed.toNumbered
  rcases happlied.store_eq with hstore | hstore
  · have hsame := h.extends hbefore.toNumbered hafter hbatch.extends_before
    have hposition : later.position = ix.position := congrArg IndexStore.position hstore
    refine ⟨happlied.view_eq.trans h.view_eq, ?_, ?_, ?_, ?_⟩
    · rw [hstore, hposition]
      exact hsame.holds
    · rw [hposition]
      exact hsame.built_le
    · rw [hposition]
      exact hsame.seq_le
    · rw [hposition]
      exact hsame.lt_of_mem
  · have hholds := h.holds.applyBatch (events.filterMap ix.view.updateAfter?) (some last)
    rw [h.view_eq, View.setAll_updatesAfter_batch hbefore.toNumbered h.built_le h.seq_le hbatch]
      at hholds
    have hposition : later.position = last := congrArg IndexStore.position hstore
    refine ⟨happlied.view_eq.trans h.view_eq, ?_, ?_, ?_, ?_⟩
    · rw [hstore, h.view_eq, hposition]
      exact hholds
    · intro p
      rw [hposition]
      exact (h.built_le p).trans (hbatch.precedes.seq_le p)
    · rw [hposition]
      exact hbatch.seq_le_tail h.seq_le
    · rw [hposition]
      exact hbatch.lt_of_mem h.lt_of_mem

theorem Follows.step {feed : φ} (h : Follows view built ix (backing feed))
    (hfeed : (backing feed).WellFormed) (now : Nat) :
    Follows view (ix.builtAfter (ix.step feed now).indexer built) (ix.step feed now).indexer
      (backing (ix.step feed now).feed) := by
  obtain ⟨events, last, final, hread, hbatch⟩ := readBatch_spec h.seq_le hfeed
  have happlied := applied_applyEvents ix events last now
  have hlater := h.applied hfeed hbatch happlied
  unfold Indexer.step
  rw [hread]
  dsimp only
  split
  next =>
    rw [builtAfter_of_eq rfl]
    exact h.extends hfeed.toNumbered hbatch.wellFormed.toNumbered hbatch.extends_before
  next =>
    split
    next heq =>
      rw [heq] at happlied hlater
      rw [builtAfter_of_eq happlied.rebuilds_eq]
      exact hlater
    next heq =>
      rw [heq] at happlied hlater
      split
      next =>
        have hrepaired := hlater.verifyAndRepair hbatch.wellFormed now
        rw [builtAfter, happlied.rebuilds_eq] at hrepaired
        exact hrepaired
      next =>
        rw [builtAfter_of_eq happlied.rebuilds_eq]
        exact hlater

/-! ## Starting -/

/-- Whether an indexer finds stored state that it can start from. -/
def recovers (ix : Indexer) (feed : φ) : Bool :=
  match ix.checkpoint with
  | none => false
  | some checkpoint =>
      match (checkpoint.recover (ChangeFeed.tailPosition feed)).1 with
      | .ok (some _) => true
      | _ => false

/-- Where the index was built with which an indexer starts, if the one that is stored was built at
the given position. -/
def builtAtStart (ix : Indexer) (feed : φ) (now : Nat) (stored : Position) : Position :=
  if ix.recovers feed then stored else (ix.startUp feed now).indexer.position

theorem startUp_cases (ix : Indexer) (feed : φ) (now : Nat) :
    (ix.recovers feed = false ∧ ∃ checkpoint,
      ix.startUp feed now = { ix with state := .catchingUp, checkpoint }.bulkLoad feed now) ∨
    (ix.recovers feed = true ∧ ∃ (before after : Checkpoint) (recovered : Recovered),
      ix.checkpoint = some before ∧
      (before.recover (ChangeFeed.tailPosition feed)).1 = .ok (some recovered) ∧
      (ix.startUp feed now).indexer = ix.takeOver after recovered ∧
      (ix.startUp feed now).feed = feed) := by
  unfold recovers
  cases hcheckpoint : ix.checkpoint with
  | none => exact .inl ⟨rfl, ix.checkpoint, startUp_eq hcheckpoint feed now⟩
  | some before =>
      cases hrecover : before.recover (ChangeFeed.tailPosition feed) with
      | mk answer after =>
          have hanswer : (before.recover (ChangeFeed.tailPosition feed)).1 = answer :=
            congrArg Prod.fst hrecover
          dsimp only
          rw [hanswer]
          split
          next recovered =>
            refine .inr ⟨rfl, before, ?_⟩
            rw [startUp_of_recovered hcheckpoint hrecover]
            split
            next => split <;> exact ⟨_, recovered, rfl, congrArg Prod.fst hrecover, rfl, rfl⟩
            next => exact ⟨_, recovered, rfl, congrArg Prod.fst hrecover, rfl, rfl⟩
          next hnone =>
            exact .inl ⟨rfl, _, startUp_of_not_recovered hcheckpoint hrecover hnone⟩

/-- Whatever an indexer starts from, its index has the entries by its position, provided that
stored state is recovered as the last indexer left it. -/
theorem Follows.startUp {feed : φ} {last : Indexer} (h : Follows view built last (backing feed))
    (hfeed : (backing feed).WellFormed) (hview : ix.view = view)
    (hshows : ∀ (before : Checkpoint) recovered, ix.checkpoint = some before →
      (before.recover (ChangeFeed.tailPosition feed)).1 = .ok (some recovered) →
        recovered.Shows last.position last.store.current.contents) (now : Nat) :
    Follows view (ix.builtAtStart feed now built) (ix.startUp feed now).indexer
      (backing (ix.startUp feed now).feed) := by
  unfold builtAtStart
  rcases startUp_cases ix feed now with ⟨hnone, checkpoint, hstart⟩ |
    ⟨hsome, before, after, recovered, hcheckpoint, hrecover, hstart, hsame⟩
  · have hstarted : { ix with state := .catchingUp, checkpoint }.view = view := hview
    rw [if_neg (by rw [hnone]; exact Bool.false_ne_true), hstart]
    exact follows_bulkLoad hstarted hfeed now
  · obtain ⟨hposition, hlists, -⟩ := hshows before recovered hcheckpoint hrecover
    have hholds := IndexStore.holds_replaceAll ix.store hlists.nodup recovered.position
    rw [hlists.setAll_eq, Checkpoint.contents_eq h.holds] at hholds
    have htaken : (ix.takeOver after recovered).position = last.position := hposition
    rw [if_pos hsome, hstart, hsame]
    refine ⟨hview, ?_, ?_, ?_, ?_⟩
    · rw [htaken]
      exact hholds
    · rw [htaken]
      exact h.built_le
    · rw [htaken]
      exact h.seq_le
    · rw [htaken]
      exact h.lt_of_mem

end

end ViewIndex.Indexer
