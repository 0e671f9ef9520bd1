import ViewIndex.Proofs.Indexer.Currency
import ViewIndex.Proofs.Storage.Tears

/-!
# Indexers that store their view

While an indexer follows an orderly feed, its files tell a history that ends with what the index
holds. If a torn frame was left in the open log, this is so again once an image was written.
-/

namespace ViewIndex

/-! ## Orderly feeds -/

/-- What an indexer relies on in a feed, as long as the feed is in a good state: the events that it
is given lie behind the position that it asked from, every document is listed once, and all numbers
fit their widths. -/
structure ChangeFeed.Orderly {φ : Type} [ChangeFeed φ] (Good : φ → Prop) : Prop where
  partitions_le : ∀ feed, Good feed → partitions feed ≤ 2 ^ 32
  good_read : ∀ feed, Good feed → ∀ partition after limit, Good (read feed partition after limit).2
  seq_read : ∀ feed, Good feed → ∀ partition after limit events last,
    (read feed partition after limit).1 = .ok events → events.getLast? = some last →
      after ≤ last.seq ∧ last.seq < 2 ^ 64
  listAll : ∀ feed, Good feed → ∀ docs position, (listAll feed).1 = .ok (docs, position) →
    (docs.map Document.id).Nodup ∧ position.Fits

namespace MemoryStore

/-- The numbers of a store fit their widths. -/
structure Fits (store : MemoryStore) : Prop where
  wellFormed : store.WellFormed
  partitions_le : store.partitions ≤ 2 ^ 32
  tail_lt : ∀ p, store.tail p < 2 ^ 64

theorem WellFormed.fits {store : MemoryStore} (h : store.WellFormed)
    (hpartitions : store.partitions ≤ 2 ^ 32)
    (htail : ∀ p < store.partitions, store.tail p < 2 ^ 64) : store.Fits where
  wellFormed := h
  partitions_le := hpartitions
  tail_lt p := by
    by_cases hp : p < store.partitions
    · exact htail p hp
    · have hnone : store.logs[p]? = none := by
        rw [Array.getElem?_eq_none_iff, h.size_logs]
        exact Nat.le_of_not_lt hp
      simp [tail, log, Array.getD_eq_getD_getElem?, hnone]

theorem orderly : ChangeFeed.Orderly Fits where
  partitions_le _ hgood := hgood.partitions_le
  good_read _ hgood _ _ _ := hgood
  seq_read store hgood p after limit events last hread hlast := by
    have hstore := hgood.wellFormed
    by_cases hp : p < store.partitions
    · have hchunk : store.read p after limit = .ok events := hread
      rw [read_eq hstore.toNumbered hp] at hchunk
      obtain rfl := Except.ok.inj hchunk
      have hlength : (store.chunk p after (after + limit)).length = _ := length_chunk p after _
      have hpos := List.length_pos_of_mem (List.mem_of_getLast? hlast)
      have hlt := hgood.tail_lt p
      rw [seq_of_getLast? hstore.toNumbered hlast]
      omega
    · have hnone : store.logs[p]? = none := by
        rw [Array.getElem?_eq_none_iff, hstore.size_logs]
        exact Nat.le_of_not_lt hp
      have herror : store.read p after limit = .error (.unknownPartition p) := by
        rw [read, hnone]
      have hread : store.read p after limit = .ok events := hread
      rw [herror] at hread
      cases hread
  listAll store hgood docs position hlist := by
    have hstore := hgood.wellFormed
    have hanswer : store.listAll = (docs, position) := Except.ok.inj hlist
    have hdocs : store.listAll.1 = docs := congrArg Prod.fst hanswer
    have hposition : store.listAll.2 = position := congrArg Prod.snd hanswer
    rw [← hdocs, ← hposition, Indexer.listAll_snd hstore.toNumbered]
    exact ⟨View.docId_nodup (Indexer.id_of_docs hstore),
      Position.fits_upTo hgood.partitions_le hgood.tail_lt⟩

end MemoryStore

namespace Position

theorem Fits.insert {position : Position} (h : position.Fits) {p n : Nat} (hp : p < 2 ^ 32)
    (hn : n < 2 ^ 64) : Position.Fits (position.insert p n) := by
  rintro ⟨q, m⟩ hitem
  rw [Std.ExtTreeMap.mem_toList_iff_getElem?_eq_some, Std.ExtTreeMap.getElem?_insert] at hitem
  split at hitem
  next heq =>
    rw [Std.LawfulEqCmp.compare_eq_iff_eq] at heq
    obtain rfl := heq
    obtain rfl := Option.some.inj hitem
    exact ⟨hp, hn⟩
  next => exact h (q, m) (Std.ExtTreeMap.mem_toList_iff_getElem?_eq_some.mpr hitem)

theorem Precedes.insert {a b : Position} (h : a.Precedes b) {p n : Nat} (hn : a.seq p ≤ n) :
    a.Precedes (b.insert p n) where
  mem q hq := by
    rw [Std.ExtTreeMap.mem_insert]
    exact .inr (h.mem q hq)
  seq_le q := by
    rw [seq_insert]
    split
    next heq => exact heq ▸ hn
    next => exact h.seq_le q

theorem precedes_behind {a b : Position} (h : a.Precedes b) (hfits : b.Fits) {p : Nat}
    (hp : p < 2 ^ 32) {events : List ChangeEvent} (hlast : ∀ last, events.getLast? = some last →
      a.seq p ≤ last.seq ∧ last.seq < 2 ^ 64) :
    a.Precedes (b.behind p events) ∧ (b.behind p events).Fits := by
  unfold behind
  split
  next last hsome =>
    obtain ⟨hle, hlt⟩ := hlast last hsome
    exact ⟨h.insert hle, hfits.insert hp hlt⟩
  next => exact ⟨h, hfits⟩

end Position

namespace Indexer

open Storage

variable {φ : Type} [ChangeFeed φ] {Good : φ → Prop}

/-- Reading falls back behind the position in no partition. -/
theorem precedes_readPartitions (hfeed : ChangeFeed.Orderly Good) {position : Position}
    (limit : Nat) {partitions : List Nat} (hpartitions : ∀ p ∈ partitions, p < 2 ^ 32)
    {next : Position} (hnext : position.Precedes next) (hfits : next.Fits) {feed : φ}
    (hgood : Good feed) :
    Good (readPartitions position limit partitions next feed).2 ∧
      ∀ events last, (readPartitions position limit partitions next feed).1 = .ok (events, last) →
        position.Precedes last ∧ last.Fits := by
  induction partitions generalizing next feed with
  | nil =>
      refine ⟨hgood, fun events last hread => ?_⟩
      cases hread
      exact ⟨hnext, hfits⟩
  | cons p rest ih =>
      obtain ⟨hp, hrest⟩ := List.forall_mem_cons.mp hpartitions
      have hlater := hfeed.good_read feed hgood p (position.seq p) limit
      have hseq := hfeed.seq_read feed hgood p (position.seq p) limit
      cases hread : ChangeFeed.read feed p (position.seq p) limit with
      | mk result later =>
          rw [hread] at hlater hseq
          cases result with
          | error e =>
              rw [readPartitions, hread]
              exact ⟨hlater, fun _ _ herror => by cases herror⟩
          | ok events =>
              obtain ⟨hbehind, hfitting⟩ := Position.precedes_behind hnext hfits hp
                fun last hlast => hseq events last rfl hlast
              obtain ⟨hgoodRest, hprecedes⟩ := ih hrest hbehind hfitting hlater
              rw [readPartitions_of_read hread]
              split
              next heq =>
                rw [heq] at hgoodRest
                exact ⟨hgoodRest, fun _ _ herror => by cases herror⟩
              next heq =>
                rw [heq] at hgoodRest hprecedes
                refine ⟨hgoodRest, fun _ _ hok => ?_⟩
                cases hok
                exact hprecedes _ _ rfl

/-! ## Starting -/

section

variable {ix : Indexer} {checkpoint after : Checkpoint} {feed : φ} {now : Nat}

/-- If nothing was recovered, everything is built anew. -/
theorem startUp_of_not_recovered (hcheckpoint : ix.checkpoint = some checkpoint)
    {answer : Except StorageError (Option Recovered)}
    (hrecover : checkpoint.recover (ChangeFeed.tailPosition feed) = (answer, after))
    (hnone : ∀ recovered, answer ≠ .ok (some recovered)) :
    ix.startUp feed now
      = { ix with state := .catchingUp, checkpoint := some after }.bulkLoad feed now := by
  simp only [startUp, Indexer.recover, hcheckpoint, hrecover]

/-- The indexer with what was recovered. -/
def takeOver (ix : Indexer) (checkpoint : Checkpoint) (recovered : Recovered) : Indexer :=
  { ix with
    state := .catchingUp
    checkpoint := some checkpoint
    store := ix.store.replaceAll recovered.docs recovered.position }

theorem startUp_of_recovered (hcheckpoint : ix.checkpoint = some checkpoint)
    {recovered : Recovered}
    (hrecover : checkpoint.recover (ChangeFeed.tailPosition feed) = (.ok (some recovered), after)) :
    ix.startUp feed now
      = if 0 < recovered.replayed || 0 < recovered.truncated then
          match after.writeSnapshot (ix.takeOver after recovered).store.current now with
          | (.ok (), written) => ⟨.ok (), ix.takeOver written recovered, feed⟩
          | (.error e, written) => ⟨.error (.storage e), ix.takeOver written recovered, feed⟩
        else ⟨.ok (), ix.takeOver after recovered, feed⟩ := by
  simp only [startUp, Indexer.recover, hcheckpoint, hrecover, takeOver]
  by_cases hdirty : (0 < recovered.replayed || 0 < recovered.truncated) = true
  · simp only [if_pos hdirty]
    cases hwrite : after.writeSnapshot
        (ix.store.replaceAll recovered.docs recovered.position).current now with
    | mk result written => cases result <;> rfl
  · simp only [if_neg hdirty]

end

/-! ## What the files tell -/

/-- The files tell a history that ends with what the index holds. -/
def Stored (signature feedEpoch : UInt64) (floor : Nat) (ix : Indexer) : Prop :=
  ∃ checkpoint past, ix.checkpoint = some checkpoint ∧
    Session.Kept signature feedEpoch ⟨checkpoint, ix.store, some past, floor⟩

/-- The files can be written to, but there may be more bytes at the end of the open log than the
batches that can be read. -/
def Frayed (signature feedEpoch : UInt64) (floor : Nat) (ix : Indexer) : Prop :=
  ∃ (checkpoint : Checkpoint) (more : Bytes) (image : Option Image)
    (segments : List (Nat × List Storage.Batch)) (batches : List Storage.Batch),
    ix.checkpoint = some (checkpoint.fray more) ∧
    checkpoint.signature = signature ∧ checkpoint.feedEpoch = feedEpoch ∧
    checkpoint.log.Open floor image segments batches ∧
    ix.store.Holds ix.store.current.contents ∧ ix.store.position.Fits

/-- The files tell what the index holds, unless bytes of a torn frame may be left in the log: then
no image was written yet since a number of batches. -/
def Sound (signature feedEpoch : UInt64) (floor : Nat) (torn : Prop) (since : Nat)
    (ix : Indexer) : Prop :=
  Stored signature feedEpoch floor ix ∨
    torn ∧ Frayed signature feedEpoch floor ix ∧ ix.batchesSinceSnapshot = since

/-- The clock is past the seals from before the log was opened, and there are numbers left for the
next seal and some more. -/
def CanSeal (ix : Indexer) (floor now spare : Nat) : Prop :=
  ∀ checkpoint, ix.checkpoint = some checkpoint →
    floor < checkpoint.log.nextSeal now ∧ checkpoint.log.nextSeal now + spare < 2 ^ 64

variable {signature feedEpoch : UInt64} {floor now since : Nat} {torn : Prop} {ix later : Indexer}

theorem Stored.frayed (h : Stored signature feedEpoch floor ix) :
    Frayed signature feedEpoch floor ix := by
  obtain ⟨checkpoint, past, hcheckpoint, hkept⟩ := h
  obtain ⟨image, segments, batches, hopen, -⟩ := hkept.stored
  refine ⟨checkpoint, [], image, segments, batches, ?_, hkept.signature_eq, hkept.feedEpoch_eq,
    hopen, hkept.holds, hkept.fits⟩
  rw [hcheckpoint, Checkpoint.fray, Log.fray_nil]

theorem Sound.frayed (h : Sound signature feedEpoch floor torn since ix) :
    Frayed signature feedEpoch floor ix := by
  rcases h with h | ⟨-, h, -⟩
  · exact h.frayed
  · exact h

theorem Sound.imp {other : Prop} (h : Sound signature feedEpoch floor torn since ix)
    (himp : torn → other) : Sound signature feedEpoch floor other since ix := by
  rcases h with h | ⟨htorn, h⟩
  · exact .inl h
  · exact .inr ⟨himp htorn, h⟩

theorem CanSeal.of_lastSeal_eq {spare : Nat} (h : ix.CanSeal floor now spare)
    {before after : Checkpoint} (hbefore : ix.checkpoint = some before)
    (hafter : later.checkpoint = some after) (hseal : after.log.lastSeal = before.log.lastSeal) :
    later.CanSeal floor now spare := by
  intro checkpoint hcheckpoint
  obtain rfl := Option.some.inj (hafter.symm.trans hcheckpoint)
  rw [Log.nextSeal, hseal]
  exact h before hbefore

/-- After a seal there is one number less. -/
theorem CanSeal.of_lastSeal_eq_nextSeal {spare : Nat} (h : ix.CanSeal floor now (spare + 1))
    {before after : Checkpoint} (hbefore : ix.checkpoint = some before)
    (hafter : later.checkpoint = some after)
    (hseal : after.log.lastSeal = before.log.nextSeal now) : later.CanSeal floor now spare := by
  intro checkpoint hcheckpoint
  obtain rfl := Option.some.inj (hafter.symm.trans hcheckpoint)
  obtain ⟨hclock, hlt⟩ := h before hbefore
  have hnow : now ≤ before.log.nextSeal now := Nat.le_max_left _ _
  rw [Log.nextSeal, hseal]
  omega

theorem CanSeal.mono {spare fewer : Nat} (h : ix.CanSeal floor now spare) (hle : fewer ≤ spare) :
    ix.CanSeal floor now fewer := by
  intro checkpoint hcheckpoint
  obtain ⟨hclock, hlt⟩ := h checkpoint hcheckpoint
  exact ⟨hclock, Nat.lt_of_le_of_lt (Nat.add_le_add_left hle _) hlt⟩

theorem lastSeal_of_writeSnapshot {checkpoint written : Checkpoint} {snapshot : Snapshot}
    (h : checkpoint.writeSnapshot snapshot now = (.ok (), written)) :
    written.log.lastSeal = checkpoint.log.nextSeal now := by
  unfold Checkpoint.writeSnapshot Log.sealAt at h
  cases hrun : checkpoint.log.directory.run
      (Log.sealEffects checkpoint.log.directory (checkpoint.log.nextSeal now)) with
  | mk result directory =>
      simp only [hrun] at h
      split at h
      next heq =>
        cases result <;> cases heq
        cases h
      next heq =>
        cases result <;> cases heq
        split at h
        next => cases h
        next =>
          obtain rfl := congrArg Prod.snd h
          rfl

/-! ## Images -/

/-- An image that was written mends the files. -/
theorem Frayed.of_writeSnapshot (h : Frayed signature feedEpoch floor ix)
    (hseal : ix.CanSeal floor now 0) {checkpoint written : Checkpoint}
    (hcheckpoint : ix.checkpoint = some checkpoint)
    (hwrite : checkpoint.writeSnapshot ix.store.current now = (.ok (), written))
    (hlater : later.checkpoint = some written) (hstore : later.store = ix.store) :
    Stored signature feedEpoch floor later := by
  obtain ⟨clean, more, image, segments, batches, hclean, rfl, rfl, hopen, hholds, hfits⟩ := h
  obtain rfl := Option.some.inj (hcheckpoint.symm.trans hclean)
  obtain ⟨hclock, hlt⟩ := hseal _ hcheckpoint
  have hkept := Session.kept_of_writeSnapshot hopen hholds hfits hclock hlt
    (Checkpoint.writeSnapshot_fray hopen hlt more hwrite)
  rw [← hstore] at hkept
  exact ⟨written, _, hlater, hkept⟩

/-- An image that was written leaves nothing to do, and takes one number for its seal. -/
theorem exists_of_writeImage {checkpoint : Checkpoint}
    (hcheckpoint : ix.checkpoint = some checkpoint)
    (hwrite : ix.writeImage now = (.ok (), later)) :
    ∃ written, checkpoint.writeSnapshot ix.store.current now = (.ok (), written) ∧
      later = { ix with checkpoint := some written, batchesSinceSnapshot := 0 } := by
  rw [Indexer.writeImage, hcheckpoint] at hwrite
  dsimp only at hwrite
  split at hwrite
  next written hwritten => exact ⟨written, hwritten, (congrArg Prod.snd hwrite).symm⟩
  next => cases hwrite

theorem Frayed.writeImage (h : Frayed signature feedEpoch floor ix)
    (hseal : ix.CanSeal floor now 0) (hwrite : ix.writeImage now = (.ok (), later)) :
    Stored signature feedEpoch floor later := by
  obtain ⟨clean, more, -, -, -, hcheckpoint, -⟩ := id h
  obtain ⟨written, hwritten, rfl⟩ := exists_of_writeImage hcheckpoint hwrite
  exact h.of_writeSnapshot hseal hcheckpoint hwritten rfl rfl

/-- Loading documents replaces everything that is stored. -/
theorem Frayed.load (h : Frayed signature feedEpoch floor ix)
    (hseal : ix.CanSeal floor now 0) {docs : List Document}
    (hdocs : (docs.map Document.id).Nodup) {position : Position} (hposition : position.Fits)
    (hload : ix.load docs position now = (.ok (), later)) :
    Stored signature feedEpoch floor later := by
  obtain ⟨checkpoint, more, image, segments, batches, hcheckpoint, rfl, rfl, hopen, -, -⟩ := h
  obtain ⟨kept, cleared, hreset, hcleared, hlast⟩ := Session.exists_reset hopen
  have hfrayed := Checkpoint.reset_fray hopen more
  have hdistinct := View.nodup_collectUpdates ix.view ix.tally hdocs
  have hholds := IndexStore.holds_replaceAll ix.store hdistinct position
  rw [Indexer.load] at hload
  simp only [discardStored, hcheckpoint, hfrayed, hreset] at hload
  refine Frayed.writeImage ?_ (hseal.of_lastSeal_eq hcheckpoint rfl hlast) hload
  refine ⟨{ checkpoint with log := cleared }, [], none, kept, [], ?_, rfl, rfl, hcleared, ?_,
    hposition⟩
  · rw [Checkpoint.fray, Log.fray_nil]
  · rw [Checkpoint.contents_eq hholds]
    exact hholds

/-- If the feed gives no listing, nothing has changed. -/
theorem Frayed.bulkLoad (hfeed : ChangeFeed.Orderly Good) {feed : φ} (hgood : Good feed)
    (h : Frayed signature feedEpoch floor ix) (hseal : ix.CanSeal floor now 0)
    (hresult : ∀ e, (ix.bulkLoad feed now).result ≠ .error (.storage e)) :
    (ix.bulkLoad feed now).result = .ok () ∧
        Stored signature feedEpoch floor (ix.bulkLoad feed now).indexer ∨
      (ix.bulkLoad feed now).result ≠ .ok () ∧ (ix.bulkLoad feed now).indexer = ix := by
  have hlisting := hfeed.listAll feed hgood
  unfold Indexer.bulkLoad at hresult ⊢
  cases hlist : ChangeFeed.listAll feed with
  | mk answer behind =>
      rw [hlist] at hlisting
      simp only [hlist] at hresult ⊢
      cases answer with
      | error e => exact .inr ⟨by simp, rfl⟩
      | ok listing =>
          obtain ⟨docs, position⟩ := listing
          obtain ⟨hdocs, hposition⟩ := hlisting docs position rfl
          cases hload : ix.load docs position now with
          | mk result loaded =>
              simp only [hload] at hresult ⊢
              cases result with
              | error e => exact absurd rfl (hresult e)
              | ok done => exact .inl ⟨rfl, h.load hseal hdocs hposition hload⟩

/-! ## Batches -/

/-- The indexer after a batch was logged and published. -/
def record (ix : Indexer) (updates : List DocUpdate) (position : Position) : Indexer :=
  { ix with
    checkpoint := ix.checkpoint.map fun checkpoint => checkpoint.recordBatch position updates
    store := (ix.store.applyBatch updates (some position)).1
    batchesSinceSnapshot := ix.batchesSinceSnapshot + 1 }

section

variable {updates : List DocUpdate} {position : Position}

theorem record_checkpoint {checkpoint : Checkpoint} (h : ix.checkpoint = some checkpoint) :
    (ix.record updates position).checkpoint = some (checkpoint.recordBatch position updates) := by
  rw [record, h]
  rfl

@[simp]
theorem record_store :
    (ix.record updates position).store = (ix.store.applyBatch updates (some position)).1 := rfl

theorem commit_of_stored {checkpoint : Checkpoint} (hcheckpoint : ix.checkpoint = some checkpoint)
    (updates : List DocUpdate) (position : Position) (now : Nat) :
    ix.commit updates position now
      = match Checkpoint.checkBatch position updates with
        | .error e => (.error e, ix)
        | .ok () =>
            if max ix.config.snapshotEveryBatches 1
                ≤ (ix.record updates position).batchesSinceSnapshot then
              (ix.record updates position).writeImage now
            else (.ok (), ix.record updates position) := by
  have hcheck : ix.checkBatch updates position = Checkpoint.checkBatch position updates := by
    rw [Indexer.checkBatch, hcheckpoint]
    rfl
  have hsome : (ix.checkpoint.map fun checkpoint =>
      checkpoint.recordBatch position updates).isNone = false := by
    rw [hcheckpoint]
    rfl
  rw [Indexer.commit, hcheck]
  simp only [hsome]
  rfl

theorem exists_of_commit {checkpoint : Checkpoint} (hcheckpoint : ix.checkpoint = some checkpoint)
    (hcommit : ix.commit updates position now = (.ok (), later)) :
    Checkpoint.checkBatch position updates = .ok () ∧
      (later = ix.record updates position ∨
        (ix.record updates position).writeImage now = (.ok (), later)) := by
  rw [commit_of_stored hcheckpoint] at hcommit
  split at hcommit
  next => cases hcommit
  next hlogged =>
    refine ⟨hlogged, ?_⟩
    split at hcommit
    next => exact .inr hcommit
    next => exact .inl (congrArg Prod.snd hcommit).symm

variable (hprecedes : ix.position.Precedes position) (hfits : position.Fits)
  (hlogged : Checkpoint.checkBatch position updates = .ok ())
include hprecedes hfits hlogged

theorem Stored.record (h : Stored signature feedEpoch floor ix) :
    Stored signature feedEpoch floor (ix.record updates position) := by
  obtain ⟨checkpoint, past, hcheckpoint, hkept⟩ := h
  have hcommits : Session.Commits ⟨checkpoint, ix.store, some past, floor⟩ ⟨position, updates⟩ :=
    ⟨hprecedes, hfits, hlogged⟩
  have hcommitted := hkept.commit hcommits
  refine ⟨checkpoint.recordBatch position updates, past.add ⟨position, updates⟩,
    record_checkpoint hcheckpoint, ?_⟩
  rw [record_store]
  exact hcommitted

omit hprecedes in
/-- Batches are appended to a torn log, too. -/
theorem Frayed.record (h : Frayed signature feedEpoch floor ix) :
    Frayed signature feedEpoch floor (ix.record updates position) := by
  obtain ⟨checkpoint, more, image, segments, batches, hcheckpoint, hsignature, hepoch, hopen,
    hholds, -⟩ := h
  have hframed : Log.Framed (Checkpoint.batchOf position updates) :=
    ⟨hfits, Checkpoint.lt_of_checkBatch hlogged⟩
  have happlied := hholds.applyBatch updates (some position)
  have happend : (checkpoint.fray more).recordBatch position updates
      = checkpoint.fray (more ++ Log.frame (Checkpoint.batchOf position updates)) :=
    congrArg (fun log => { checkpoint with log }) (Log.append_fray hopen.laid.plain more hframed)
  rw [← Checkpoint.contents_eq happlied] at happlied
  refine ⟨checkpoint, more ++ Log.frame (Checkpoint.batchOf position updates), image, segments,
    batches, ?_, hsignature, hepoch, hopen, ?_, ?_⟩
  · rw [record_checkpoint hcheckpoint, happend]
  · rw [record_store]
    exact happlied
  · rw [record_store]
    exact hfits

omit hlogged in
theorem Sound.commit (h : Sound signature feedEpoch floor torn since ix)
    (hseal : ix.CanSeal floor now 1) (hcommit : ix.commit updates position now = (.ok (), later)) :
    Sound signature feedEpoch floor torn (since + 1) later ∧ later.CanSeal floor now 0 ∧
      later.batches = ix.batches := by
  obtain ⟨checkpoint, more, -, -, -, hcheckpoint, -⟩ := h.frayed
  obtain ⟨hlogged, hlater⟩ := exists_of_commit hcheckpoint hcommit
  have hrecorded : (ix.record updates position).checkpoint = _ := record_checkpoint hcheckpoint
  have hseal : (ix.record updates position).CanSeal floor now 1 :=
    hseal.of_lastSeal_eq hcheckpoint hrecorded rfl
  have hfrayed := h.frayed.record hfits hlogged
  rcases hlater with rfl | hwrite
  · refine ⟨?_, hseal.mono (Nat.zero_le 1), rfl⟩
    rcases h with h | ⟨htorn, h, hsince⟩
    · exact .inl (h.record hprecedes hfits hlogged)
    · exact .inr ⟨htorn, hfrayed, congrArg (· + 1) hsince⟩
  · obtain ⟨written, hwritten, rfl⟩ := exists_of_writeImage hrecorded hwrite
    refine ⟨.inl (hfrayed.writeImage (hseal.mono (Nat.zero_le 1)) hwrite), ?_, rfl⟩
    exact hseal.of_lastSeal_eq_nextSeal hrecorded rfl (lastSeal_of_writeSnapshot hwritten)

end

/-- A batch that was applied is counted, so it is no earlier than the last image. -/
theorem Sound.applyEvents (h : Sound signature feedEpoch floor torn ix.batches ix)
    (hseal : ix.CanSeal floor now 1) {position : Position}
    (hprecedes : ix.position.Precedes position) (hfits : position.Fits) {events : List ChangeEvent}
    (happly : ix.applyEvents events position now = (.ok (), later)) :
    Sound signature feedEpoch floor torn later.batches later ∧ later.CanSeal floor now 0 := by
  let counted : Indexer := { ix with tally := (View.collectUpdates ix.view.evaluateEvent ix.tally
    events).1 }
  have hcounted : Sound signature feedEpoch floor torn ix.batches counted := h
  have hbefore : counted.position.Precedes position := hprecedes
  rw [Indexer.applyEvents] at happly
  dsimp only at happly
  split at happly
  next => cases happly
  next committed hcommit =>
    obtain rfl := congrArg Prod.snd happly
    obtain ⟨hsound, hlater, hbatches⟩ := hcounted.commit hbefore hfits hseal hcommit
    have hcount : committed.batches = ix.batches := hbatches
    rw [← hcount] at hsound
    exact ⟨hsound, hlater⟩

/-- If a repair cannot get a listing, the damaged index stays, and what is stored stays, too. -/
theorem Sound.verifyAndRepair (hfeed : ChangeFeed.Orderly Good) {feed : φ} (hgood : Good feed)
    (h : Sound signature feedEpoch floor torn ix.batches ix) (hseal : ix.CanSeal floor now 0)
    (hresult : ∀ e, (ix.verifyAndRepair feed now).result ≠ .error (.storage e)) :
    Sound signature feedEpoch floor torn (ix.verifyAndRepair feed now).indexer.batches
      (ix.verifyAndRepair feed now).indexer := by
  unfold Indexer.verifyAndRepair at hresult ⊢
  split
  next => exact h
  next damage hcheck =>
    let started : Indexer := { ix with state := .rebuilding, rebuilds := ix.rebuilds + 1 }
    have hload : ∀ e, (started.bulkLoad feed now).result ≠ .error (.storage e) := by
      intro e herror
      rw [hcheck] at hresult
      apply hresult e
      change (started.bulkLoad feed now).result.map _ = _
      rw [herror]
      rfl
    have hfrayed : Frayed signature feedEpoch floor started := h.frayed
    rcases hfrayed.bulkLoad hfeed hgood hseal hload with ⟨-, hstored⟩ | ⟨-, hsame⟩
    · exact .inl hstored
    · have hrebuild : (ix.rebuild feed now).indexer
          = { started with state := stateAfterRebuild ix.state } := by
        rw [Indexer.rebuild]
        exact congrArg (fun indexer : Indexer =>
          { indexer with state := stateAfterRebuild ix.state }) hsame
      dsimp only
      rw [hrebuild]
      exact h

theorem Sound.step (hfeed : ChangeFeed.Orderly Good) {feed : φ} (hgood : Good feed)
    (h : Sound signature feedEpoch floor torn ix.batches ix) (hseal : ix.CanSeal floor now 1)
    (hresult : ∀ e, (ix.step feed now).result ≠ .error (.storage e)) :
    Sound signature feedEpoch floor torn (ix.step feed now).indexer.batches
      (ix.step feed now).indexer := by
  obtain ⟨-, -, -, -, -, -, -, -, -, -, hfits⟩ := h.frayed
  have hpartitions : ∀ p ∈ List.range (ChangeFeed.partitions feed), p < 2 ^ 32 := fun p hp =>
    Nat.lt_of_lt_of_le (List.mem_range.mp hp) (hfeed.partitions_le feed hgood)
  obtain ⟨hread, hbehind⟩ := precedes_readPartitions hfeed ix.config.batchSize hpartitions
    (Position.Precedes.refl ix.position) hfits hgood
  unfold Indexer.step Indexer.readBatch at hresult ⊢
  split at hresult
  next => exact h
  next events position behind hbatch =>
    rw [hbatch] at hread hbehind
    obtain ⟨hprecedes, hfitting⟩ := hbehind events position rfl
    split at hresult
    next hempty => rwa [if_pos hempty]
    next hempty =>
      rw [if_neg hempty]
      split at hresult
      next e failed _ => exact absurd rfl (hresult e)
      next applied happly =>
        obtain ⟨hsound, hlater⟩ := h.applyEvents hseal hprecedes hfitting happly
        split at hresult
        next hdue =>
          rw [if_pos hdue]
          apply hsound.verifyAndRepair hfeed hread hlater
          intro e herror
          apply hresult e
          change (applied.verifyAndRepair behind now).result.map _ = _
          rw [herror]
          rfl
        next hdue =>
          rw [if_neg hdue]
          exact hsound

end Indexer

end ViewIndex
