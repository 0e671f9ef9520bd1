import ViewIndex.Proofs.Indexer.Publishing
import ViewIndex.Proofs.Query.Answers

/-!
# What indexers write

An indexer without stored state writes its index in two ways only. It replaces everything by the
entries of all documents, each listed once, or it applies the updates of a batch; either way the
keys were encoded when documents were evaluated. So an index that it gets to is an empty one after
such writes, whether the map ever failed or not, and its queries are answered as those of any store
of encoded keys.
-/

namespace ViewIndex

namespace View

variable {view : View}

/-- Evaluating a document encodes its keys. -/
theorem encoded_evaluate {tally : Tally} {doc : Document} {update : DocUpdate}
    (h : (view.evaluate tally doc).2 = some update) : update.Encoded := by
  have hemissions (emissions : List Emission) (tally : Tally) :
      DocUpdate.Encoded ⟨doc.id, (encodeEmissions tally emissions).2⟩ := by
    induction emissions generalizing tally with
    | nil =>
        intro entry hentry
        cases hentry
    | cons emission rest ih =>
        rw [encodeEmissions]
        cases hkey : emission.encodeKey with
        | error e => exact ih _
        | ok key =>
            intro entry hentry
            rcases List.mem_cons.mp hentry with rfl | hrest
            · rw [Emission.encodeKey] at hkey
              cases hparts : KeyPart.ofJsonItems emission.key with
              | error e => rw [hparts] at hkey; cases hkey
              | ok parts => rw [hparts] at hkey; exact ⟨parts, hkey⟩
            · exact ih _ entry hrest
  rw [evaluate] at h
  split at h
  next => cases h
  next =>
    cases h
    exact hemissions _ tally

theorem encoded_update? {docs : List Document} :
    ∀ update ∈ docs.filterMap view.update?, update.Encoded := by
  intro update hupdate
  obtain ⟨doc, -, hdoc⟩ := List.mem_filterMap.mp hupdate
  exact encoded_evaluate hdoc

/-- A removal has no keys. -/
theorem encoded_updateAfter? {events : List ChangeEvent} :
    ∀ update ∈ events.filterMap view.updateAfter?, update.Encoded := by
  intro update hupdate
  obtain ⟨event, -, hevent⟩ := List.mem_filterMap.mp hupdate
  unfold updateAfter? evaluateEvent at hevent
  split at hevent
  next => exact encoded_evaluate hevent
  next =>
    obtain rfl := Option.some.inj hevent
    intro entry hentry
    cases hentry

end View

namespace Indexer

open IndexStore (Write)
open SharedFeed (backing)

/-- The index is an empty one after writes of encoded keys, of which those that replace everything
list each document once. Nothing is stored. -/
structure Written (view : View) (ix : Indexer) (store : MemoryStore) : Prop where
  wellFormed : store.WellFormed
  view_eq : ix.view = view
  checkpoint : ix.checkpoint = none
  exists_writes : ∃ writes : List Write, (∀ w ∈ writes, w.Distinct ∧ w.Encoded) ∧
    ix.store = writes.foldl IndexStore.write (.empty view.name view.reducer)

theorem written_create (view : View) (config : Config) {store : MemoryStore}
    (hstore : store.WellFormed) : Written view (create view config none) store where
  wellFormed := hstore
  view_eq := rfl
  checkpoint := rfl
  exists_writes := ⟨[], fun _ hw => (List.not_mem_nil hw).elim, rfl⟩

namespace Written

variable {view : View} {ix : Indexer} {store : MemoryStore}

/-- One write more. -/
theorem concat (h : Written view ix store) {later : Indexer} (hview : later.view = ix.view)
    (hcheckpoint : later.checkpoint = none) (w : Write) (hdistinct : w.Distinct)
    (hencoded : w.Encoded) (hstore : later.store = ix.store.write w) :
    Written view later store where
  wellFormed := h.wellFormed
  view_eq := hview.trans h.view_eq
  checkpoint := hcheckpoint
  exists_writes := by
    obtain ⟨writes, hwrites, heq⟩ := h.exists_writes
    refine ⟨writes ++ [w], List.forall_mem_append.mpr ⟨hwrites, ?_⟩, ?_⟩
    · exact List.forall_mem_singleton.mpr ⟨hdistinct, hencoded⟩
    · rw [hstore, heq, List.foldl_append]
      rfl

theorem load (h : Written view ix store) (now : Nat) :
    Written view (ix.load store.listAll.1 store.listAll.2 now).2 store := by
  have hdistinct : (store.listAll.1.map Document.id).Nodup :=
    View.docId_nodup (id_of_docs h.wellFormed)
  rw [load_eq h.checkpoint, View.collectUpdates_eq_filterMap View.evaluate_eq_update?]
  exact h.concat rfl h.checkpoint
    (.replaceAll (store.listAll.1.filterMap ix.view.update?) store.listAll.2)
    (View.nodup_updates ix.view hdistinct) View.encoded_update? rfl

theorem applyEvents (h : Written view ix store) (events : List ChangeEvent) (position : Position)
    (now : Nat) : Written view (ix.applyEvents events position now).2 store := by
  rw [applyEvents_eq h.checkpoint,
    View.collectUpdates_eq_filterMap View.evaluateEvent_eq_updateAfter?]
  exact h.concat rfl h.checkpoint
    (.applyBatch (events.filterMap ix.view.updateAfter?) (some position)) trivial
    View.encoded_updateAfter? rfl

variable {φ : Type} [SharedFeed φ] {feed : φ}

theorem bulkLoad (h : Written view ix (backing feed)) (now : Nat) :
    Written view (ix.bulkLoad feed now).indexer (backing (ix.bulkLoad feed now).feed) := by
  have hlisted : Written view ix (backing (ChangeFeed.listAll feed).2) :=
    { h with wellFormed := (SharedFeed.listAll_spec h.wellFormed).1 }
  rw [bulkLoad_eq]
  exact hlisted.load now

theorem startUp (h : Written view ix (backing feed)) (now : Nat) :
    Written view (ix.startUp feed now).indexer (backing (ix.startUp feed now).feed) := by
  have hstarted : Written view { ix with state := .catchingUp } (backing feed) := { h with }
  rw [startUp_eq h.checkpoint]
  exact hstarted.bulkLoad now

theorem rebuild (h : Written view ix (backing feed)) (now : Nat) :
    Written view (ix.rebuild feed now).indexer (backing (ix.rebuild feed now).feed) := by
  have hstarted : Written view { ix with state := .rebuilding, rebuilds := ix.rebuilds + 1 }
      (backing feed) := { h with }
  exact { hstarted.bulkLoad now with }

theorem verifyAndRepair (h : Written view ix (backing feed)) (now : Nat) :
    Written view (ix.verifyAndRepair feed now).indexer
      (backing (ix.verifyAndRepair feed now).feed) := by
  unfold Indexer.verifyAndRepair
  split
  next => exact h
  next => exact h.rebuild now

theorem step (h : Written view ix (backing feed)) (now : Nat) :
    Written view (ix.step feed now).indexer (backing (ix.step feed now).feed) := by
  have hread : Written view ix (backing (ix.readBatch feed).2) :=
    { h with wellFormed := ((grows_readPartitions _ _ _ _ feed).spec h.wellFormed).1 }
  unfold Indexer.step
  generalize ix.readBatch feed = answer at hread
  obtain ⟨reading, final⟩ := answer
  cases reading with
  | error e => exact hread
  | ok batch =>
      obtain ⟨events, last⟩ := batch
      have happlied := hread.applyEvents events last now
      dsimp only
      split
      next => exact hread
      next =>
        split
        next heq => rwa [heq] at happlied
        next heq =>
          rw [heq] at happlied
          split
          next => exact happlied.verifyAndRepair now
          next => exact happlied

theorem catchUp (h : Written view ix (backing feed)) (now : Nat) :
    Written view (ix.catchUp feed now).indexer (backing (ix.catchUp feed now).feed) :=
  catchUp_keeps (P := fun ix feed => Written view ix (backing feed))
    (fun _ _ hbefore => hbefore.startUp now) (fun _ _ hbefore => hbefore.step now) h

end Written

/-! ## Runs -/

section Reached

variable {view : View} {config : Config} {ix : Indexer} {store : MemoryStore}

/-- By induction on the run; what others write does not touch the index. -/
theorem Reaches.written (h : Reaches view config ix store) : Written view ix store := by
  induction h with
  | start partitions epoch =>
      exact written_create view config (MemoryStore.wellFormed_empty partitions epoch)
  | write _ mutation ih => exact { ih with wellFormed := ih.wellFormed.mutate mutation }
  | stop _ ih => exact { ih with }
  | bulkLoad _ now ih => exact ih.bulkLoad now
  | startUp _ now ih => exact ih.startUp now
  | rebuild _ now ih => exact ih.rebuild now
  | step _ now ih => exact ih.step now
  | catchUp _ now ih => exact ih.catchUp now

/-- With a total map, a query for entries of an index is answered by the page that is asked for, of
the entries that documents have by the position of the index. -/
theorem Reaches.exists_answer (h : Reaches view config ix store) (htotal : view.IsTotal)
    {options : QueryOptions} (hreduce : options.reduce.getD view.reducer.isSome = false)
    (hclock : ∀ n, options.expired n = false) (hcontinuation : options.continuation = none)
    {plan : Plan} (hplan : options.plan view.reducer = .ok plan) :
    ∃ entries selectors result, (view.contentsAt store ix.position).ListedAs entries ∧
      options.selectors = .ok selectors ∧
      ix.store.current.query view.reducer options = .ok result ∧
      result.Answers options selectors entries := by
  have hholds := (h.current htotal).2.holds
  obtain ⟨writes, hwrites, hstore⟩ := h.written.exists_writes
  have hdistinct : ∀ w ∈ writes, w.Distinct := fun w hw => (hwrites w hw).1
  have hkeys := Contents.encoded_empty.foldl_write fun w hw => (hwrites w hw).2
  -- An index has one contents only, so the entries by the position are those that were written.
  have hwritten := ((IndexStore.holds_empty view.name view.reducer).foldl_write hdistinct).1
  rw [← hstore] at hwritten
  have hencoded : (view.contentsAt store ix.position).Encoded := by
    rw [← Storage.Checkpoint.contents_eq hholds, Storage.Checkpoint.contents_eq hwritten]
    exact hkeys
  obtain ⟨selectors, result, hselectors, hresult, hanswers⟩ :=
    hholds.exists_answer hencoded hreduce hclock hcontinuation hplan
  exact ⟨_, selectors, result, hholds.listedAs hencoded, hselectors, hresult, hanswers⟩

end Reached

end Indexer

end ViewIndex
