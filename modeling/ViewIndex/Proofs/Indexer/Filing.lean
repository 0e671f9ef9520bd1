import ViewIndex.Proofs.Indexer.Publishing
import ViewIndex.Proofs.Indexer.Restarts

/-!
# What operations store

The files of an indexer tell what its index holds, or nothing at all, also when an operation on them
failed halfway. So whoever opens them next finds the index as it was, or builds it anew. This takes
numbers that fit their widths. As long as the log stays open, every seal has a number above those of
the seals before; where a log was opened again, the clock has to be past the numbers that are found.
-/

namespace ViewIndex

open MemoryStore (Extends)

theorem MemoryStore.Fits.of_extends {store later : MemoryStore} (h : later.Fits)
    (hstore : store.WellFormed) (hextends : Extends store later) : store.Fits where
  wellFormed := hstore
  partitions_le := hextends.partitions_eq ▸ h.partitions_le
  tail_lt p := (hextends.tail_le p).trans_lt (h.tail_lt p)

/-- The numbers of a position that is not ahead of a store fit if those of the store do. -/
theorem MemoryStore.Fits.position {store : MemoryStore} (h : store.Fits) {position : Position}
    (hmem : ∀ p ∈ position, p < store.partitions) (hle : ∀ p, position.seq p ≤ store.tail p) :
    position.Fits := by
  intro item hitem
  obtain ⟨hp, hseq⟩ := Position.seq_of_mem_toList hitem
  refine ⟨(hmem item.1 hp).trans_le h.partitions_le, ?_⟩
  rw [← hseq]
  exact (hle item.1).trans_lt (h.tail_lt item.1)

namespace Storage

/-- The files belong to a view definition and a feed, and the log is open. -/
structure Checkpoint.Writable (signature feedEpoch : UInt64) (floor : Nat)
    (checkpoint : Checkpoint) : Prop where
  signature_eq : checkpoint.signature = signature
  feedEpoch_eq : checkpoint.feedEpoch = feedEpoch
  opened : ∃ image segments batches, checkpoint.log.Open floor image segments batches

theorem Checkpoint.lastSeal_openIn {directory : Directory} {signature feedEpoch : UInt64}
    {opened : Checkpoint} (h : Checkpoint.openIn directory signature feedEpoch = .ok opened) :
    opened.log.lastSeal = 0 := by
  rw [Checkpoint.openIn] at h
  cases hlog : Log.openIn directory with
  | error e => rw [hlog] at h; cases h
  | ok log =>
      rw [hlog] at h
      obtain rfl := Except.ok.inj h
      exact Log.lastSeal_openIn hlog

namespace Session

variable {signature feedEpoch : UInt64} {checkpoint : Checkpoint} {store : IndexStore}
  {history : Option History} {floor newer : Nat}

/-- Another floor will do if no image and no sealed file has a number above it. -/
theorem Kept.withFloor (h : Kept signature feedEpoch ⟨checkpoint, store, history, floor⟩)
    (hseals : SealsEnd checkpoint.directory newer) :
    Kept signature feedEpoch ⟨checkpoint, store, history, newer⟩ := by
  obtain ⟨image, segments, batches, hopen, htells⟩ := h.stored
  have hlaid : Laid checkpoint.directory ⟨image, segments, some batches⟩ := hopen.laid
  refine { h with stored := ⟨image, segments, batches, { hopen with
    segment_le := fun segment hsegment => ?_, image_le := fun saved hsaved => ?_ }, htells⟩ }
  · have hle := hseals.sealed (segment.1, Log.sealName segment.1)
      ((hlaid.mem_sealedFiles_iff _).mpr ⟨segment, hsegment, rfl⟩)
    exact hle.trans (Nat.le_max_left _ _)
  · have hle := hseals.image saved (by rw [hlaid.load, hsaved])
    exact hle.trans (Nat.le_max_left _ _)

/-- What the files tell is the same after they were opened again. -/
theorem Kept.opened (h : Kept signature feedEpoch ⟨checkpoint, store, history, floor⟩)
    {opened : Checkpoint}
    (hopen : Checkpoint.openIn checkpoint.directory signature feedEpoch = .ok opened) :
    Kept signature feedEpoch ⟨opened, store, history, checkpoint.log.given floor⟩ := by
  obtain ⟨image, segments, batches, hlog, htells⟩ := h.stored
  obtain ⟨log, hopened, hlater⟩ :=
    Log.open_openIn hlog.laid (checkpoint.log.given floor) hlog.segment_le hlog.image_le
  have hlogged : Log.openIn checkpoint.directory = .ok log := hopened
  rw [Checkpoint.openIn, hlogged] at hopen
  obtain rfl := Except.ok.inj hopen
  exact ⟨rfl, rfl, ⟨image, segments, batches, hlater, htells⟩, h.holds, h.fits, h.current⟩

theorem Kept.writable (h : Kept signature feedEpoch ⟨checkpoint, store, history, floor⟩) :
    checkpoint.Writable signature feedEpoch floor := by
  obtain ⟨image, segments, batches, hopen, -⟩ := h.stored
  exact ⟨h.signature_eq, h.feedEpoch_eq, image, segments, batches, hopen⟩

/-- What can be recovered from the files of an index is what it held, provided that its values are
read back as what they were. -/
theorem Kept.recover_cases (h : Kept signature feedEpoch ⟨checkpoint, store, history, floor⟩)
    (hsame : ∀ e ∈ store.current.entries, Json.parse? e.value.compact = some e.value)
    {tail : Position} (htail : ∀ p, store.position.seq p ≤ tail.seq p) :
    (∃ recovered past, checkpoint.recover tail = (.ok (some recovered), checkpoint) ∧
      history = some past ∧ recovered.Shows store.position store.current.contents) ∨
    ∃ answer after, checkpoint.recover tail = (answer, after) ∧
      (∀ recovered, answer ≠ .ok (some recovered)) ∧
      after.Writable signature feedEpoch floor ∧
      after.log.lastSeal = checkpoint.log.lastSeal := by
  obtain ⟨image, segments, batches, hopen, htells⟩ := h.stored
  obtain rfl := h.signature_eq
  obtain rfl := h.feedEpoch_eq
  have hlaid : Laid checkpoint.directory ⟨image, segments, some batches⟩ := hopen.laid
  cases history with
  | none =>
      have hnone : image = none := htells
      subst hnone
      obtain ⟨kept, cleared, hreset, hcleared, hlast⟩ := hopen.reset
      refine .inr ⟨_, _, Checkpoint.recover_of_no_image hlaid rfl tail, fun _ => by simp, ?_⟩
      rw [Checkpoint.resetLog, hreset]
      exact ⟨⟨rfl, rfl, none, kept, [], hcleared⟩, hlast⟩
  | some past =>
      obtain ⟨hposition, hcontents⟩ := h.current past rfl
      by_cases hreadable : past.Readable
      · have hholds : store.Holds past.contents := hcontents ▸ h.holds
        have hexact := Indexer.exact_of_entries hholds hreadable hsame
        obtain ⟨recovered, hrecover, hshows⟩ := recover_of_readable hlaid htells
          (by rw [hposition]; exact htail) hreadable
        refine .inl ⟨recovered, past, hrecover, rfl, ?_⟩
        rw [((History.exact_iff past).mp hexact).2, hposition, hcontents] at hshows
        exact hshows
      · exact .inr ⟨_, _, recover_of_not_readable hlaid htells hreadable, fun _ => by simp,
          h.writable, rfl⟩

end Session

end Storage

namespace Indexer

open Storage
open SharedFeed (backing)

/-- The files of an indexer, if it has some, tell what an index holds, or they tell nothing. -/
def Finds (signature feedEpoch : UInt64) (floor : Nat) (ix : Indexer) (store : IndexStore) : Prop :=
  ∀ checkpoint, ix.checkpoint = some checkpoint → ∃ history,
    Session.Kept signature feedEpoch ⟨checkpoint, store, history, floor⟩

/-- The index of which the files tell something is that of the indexer itself. -/
def Filed (signature feedEpoch : UInt64) (floor : Nat) (ix : Indexer) : Prop :=
  Finds signature feedEpoch floor ix ix.store

/-- The files of an indexer, if it has some, can be written to. -/
def Writable (signature feedEpoch : UInt64) (floor : Nat) (ix : Indexer) : Prop :=
  ∀ checkpoint, ix.checkpoint = some checkpoint → checkpoint.Writable signature feedEpoch floor

variable {signature feedEpoch : UInt64} {floor now : Nat} {ix : Indexer}

theorem Filed.writable (h : Filed signature feedEpoch floor ix) :
    Writable signature feedEpoch floor ix := by
  intro checkpoint hcheckpoint
  obtain ⟨history, hkept⟩ := h checkpoint hcheckpoint
  exact hkept.writable

/-! ## Images -/

theorem filed_of_writeSnapshot {checkpoint : Checkpoint} {store : IndexStore}
    {history : Option History}
    (h : Session.Kept signature feedEpoch ⟨checkpoint, store, history, floor⟩)
    (hclock : floor < checkpoint.log.nextSeal now) (hlt : checkpoint.log.nextSeal now < 2 ^ 64)
    {later : Indexer} (hstore : later.store = store)
    (hlater : later.checkpoint = some (checkpoint.writeSnapshot store.current now).2) :
    Filed signature feedEpoch floor later := by
  intro written hwritten
  obtain rfl := Option.some.inj (hlater.symm.trans hwritten)
  rw [hstore]
  exact ⟨_, h.snapshot ⟨hclock, hlt⟩⟩

theorem Filed.writeImage (h : Filed signature feedEpoch floor ix)
    (hseal : ix.CanSeal floor now 0) :
    Filed signature feedEpoch floor (ix.writeImage now).2 := by
  unfold Indexer.writeImage
  cases hcheckpoint : ix.checkpoint with
  | none => exact h
  | some checkpoint =>
      obtain ⟨history, hkept⟩ := h checkpoint hcheckpoint
      obtain ⟨hclock, hlt⟩ := hseal checkpoint hcheckpoint
      dsimp only
      split
      next written hwrite =>
        exact filed_of_writeSnapshot hkept hclock hlt rfl (by rw [hwrite])
      next e written hwrite =>
        exact filed_of_writeSnapshot hkept hclock hlt rfl (by rw [hwrite])

/-! ## Building anew -/

/-- Whatever was stored, it makes way for what is loaded. -/
theorem Writable.load (h : Writable signature feedEpoch floor ix) (hseal : ix.CanSeal floor now 0)
    {docs : List Document} (hdocs : (docs.map Document.id).Nodup) {position : Position}
    (hposition : position.Fits) :
    Filed signature feedEpoch floor (ix.load docs position now).2 := by
  have hholds := IndexStore.holds_replaceAll ix.store
    (View.nodup_collectUpdates ix.view ix.tally hdocs) position
  unfold Indexer.load
  dsimp only
  cases hcheckpoint : ix.checkpoint with
  | none =>
      intro checkpoint hsome
      simp [discardStored, Indexer.writeImage] at hsome
  | some checkpoint =>
      obtain ⟨rfl, rfl, image, segments, batches, hopen⟩ := h checkpoint hcheckpoint
      obtain ⟨kept, cleared, hreset, hcleared, hlast⟩ := Session.exists_reset hopen
      simp only [discardStored, hreset]
      refine Filed.writeImage ?_ (hseal.of_lastSeal_eq hcheckpoint rfl hlast)
      rintro _ ⟨⟩
      exact ⟨none, Session.kept_of_holds rfl rfl ⟨none, kept, [], hcleared, rfl⟩ hholds hposition
        fun _ hpast => by cases hpast⟩

section

variable {φ : Type} [SharedFeed φ] {feed : φ} {view : View} {built : Position}

theorem Writable.bulkLoad (h : Writable signature feedEpoch floor ix)
    (hseal : ix.CanSeal floor now 0) (hfits : (backing (ix.bulkLoad feed now).feed).Fits) :
    Filed signature feedEpoch floor (ix.bulkLoad feed now).indexer := by
  rw [bulkLoad_eq] at hfits ⊢
  have hstore := hfits.wellFormed
  apply h.load hseal (View.docId_nodup (id_of_docs hstore))
  rw [listAll_snd hstore.toNumbered]
  exact Position.fits_upTo hfits.partitions_le hfits.tail_lt

theorem Writable.rebuild (h : Writable signature feedEpoch floor ix)
    (hseal : ix.CanSeal floor now 0) (hfits : (backing (ix.rebuild feed now).feed).Fits) :
    Filed signature feedEpoch floor (ix.rebuild feed now).indexer := by
  have hstarted : Writable signature feedEpoch floor
      { ix with state := .rebuilding, rebuilds := ix.rebuilds + 1 } := h
  exact hstarted.bulkLoad hseal hfits

theorem Filed.verifyAndRepair (h : Filed signature feedEpoch floor ix)
    (hseal : ix.CanSeal floor now 0) (hfits : (backing (ix.verifyAndRepair feed now).feed).Fits) :
    Filed signature feedEpoch floor (ix.verifyAndRepair feed now).indexer := by
  unfold Indexer.verifyAndRepair at hfits ⊢
  split
  next => exact h
  next damage hcheck =>
    rw [hcheck] at hfits
    exact h.writable.rebuild hseal hfits

/-! ## Batches -/

/-- A batch is logged and published, or neither; and there may be a new image then. -/
theorem Filed.commit (h : Filed signature feedEpoch floor ix) (hseal : ix.CanSeal floor now 1)
    {position : Position} (hprecedes : ix.position.Precedes position) (hfits : position.Fits)
    (updates : List DocUpdate) :
    Filed signature feedEpoch floor (ix.commit updates position now).2 ∧
      ((ix.commit updates position now).1 = .ok () →
        (ix.commit updates position now).2.CanSeal floor now 0) := by
  cases hcheckpoint : ix.checkpoint with
  | none =>
      have hnone : (ix.commit updates position now).2.checkpoint = none := by
        simp [Indexer.commit, Indexer.checkBatch, hcheckpoint]
      constructor
      · intro checkpoint hsome
        rw [hnone] at hsome
        cases hsome
      · intro _ checkpoint hsome
        rw [hnone] at hsome
        cases hsome
  | some checkpoint =>
      rw [commit_of_stored hcheckpoint]
      split
      next => exact ⟨h, fun herror => by cases herror⟩
      next hlogged =>
        obtain ⟨history, hkept⟩ := h checkpoint hcheckpoint
        have hrecorded : (ix.record updates position).checkpoint = _ :=
          record_checkpoint hcheckpoint
        have hseal : (ix.record updates position).CanSeal floor now 1 :=
          hseal.of_lastSeal_eq hcheckpoint hrecorded rfl
        have hfiled : Filed signature feedEpoch floor (ix.record updates position) := by
          intro later hlater
          obtain rfl := Option.some.inj (hrecorded.symm.trans hlater)
          have hcommits : Session.Commits ⟨checkpoint, ix.store, history, floor⟩
              ⟨position, updates⟩ := ⟨hprecedes, hfits, hlogged⟩
          have hcommitted := hkept.commit hcommits
          exact ⟨_, hcommitted⟩
        split
        next =>
          refine ⟨hfiled.writeImage (hseal.mono (Nat.zero_le 1)), fun hok => ?_⟩
          obtain ⟨written, hwritten, hlater⟩ :=
            exists_of_writeImage hrecorded (Prod.ext hok rfl)
          exact hseal.of_lastSeal_eq_nextSeal hrecorded (congrArg Indexer.checkpoint hlater)
            (lastSeal_of_writeSnapshot hwritten)
        next => exact ⟨hfiled, fun _ => hseal.mono (Nat.zero_le 1)⟩

theorem Filed.applyEvents (h : Filed signature feedEpoch floor ix) (hseal : ix.CanSeal floor now 1)
    {position : Position} (hprecedes : ix.position.Precedes position) (hfits : position.Fits)
    (events : List ChangeEvent) :
    Filed signature feedEpoch floor (ix.applyEvents events position now).2 ∧
      ((ix.applyEvents events position now).1 = .ok () →
        (ix.applyEvents events position now).2.CanSeal floor now 0) := by
  unfold Indexer.applyEvents
  dsimp only
  generalize View.collectUpdates ix.view.evaluateEvent ix.tally events = collected
  have hcounted : Filed signature feedEpoch floor { ix with tally := collected.1 } := h
  have hcommit := hcounted.commit hseal hprecedes hfits collected.2
  split
  next e later heq =>
    rw [heq] at hcommit
    exact ⟨hcommit.1, fun herror => by cases herror⟩
  next later heq =>
    rw [heq] at hcommit
    exact ⟨hcommit.1, fun _ => hcommit.2 rfl⟩

/-- A step may write two images: one that was due, and one when the index is built anew. -/
theorem Filed.step (h : Filed signature feedEpoch floor ix) (hseal : ix.CanSeal floor now 1)
    (hfollows : Follows view built ix (backing feed)) (hfeed : (backing feed).WellFormed)
    (hfits : (backing (ix.step feed now).feed).Fits) :
    Filed signature feedEpoch floor (ix.step feed now).indexer := by
  obtain ⟨events, last, final, hread, hbatch⟩ := readBatch_spec hfollows.seq_le hfeed
  have hgrown : (backing final).Fits := hfits.of_extends hbatch.wellFormed
    ((grows_step_of_read hread now).spec hbatch.wellFormed).2
  unfold Indexer.step at hfits ⊢
  rw [hread] at hfits ⊢
  dsimp only at hfits ⊢
  have happlied := h.applyEvents hseal hbatch.precedes (hgrown.position
    (hbatch.lt_of_mem hfollows.lt_of_mem) (hbatch.seq_le_tail hfollows.seq_le)) events
  split
  next => exact h
  next hsome =>
    rw [if_neg hsome] at hfits
    split
    next heq =>
      rw [heq] at happlied
      exact happlied.1
    next heq =>
      rw [heq] at happlied hfits
      split
      next hdue =>
        simp only [if_pos hdue] at hfits
        exact happlied.1.verifyAndRepair (happlied.2 rfl) hfits
      next => exact happlied.1

/-! ## Starting -/

/-- The values of the entries are read back from their texts as what they were. -/
def ReadsBack (ix : Indexer) : Prop :=
  ∀ e ∈ ix.store.current.entries, Json.parse? e.value.compact = some e.value

/-- There are numbers left for two more seals. -/
def HasRoom (ix : Indexer) (now : Nat) : Prop :=
  ∀ checkpoint, ix.checkpoint = some checkpoint → checkpoint.log.nextSeal now + 1 < 2 ^ 64

/-- Unless the clock goes back behind the time `opened` of the last restart, the next seal has a
number above those from before. -/
theorem canSeal_of_hasRoom {opened : Nat} (hfloor : floor < max opened 1) (hclock : opened ≤ now)
    (hroom : ix.HasRoom now) : ix.CanSeal floor now 1 := by
  intro checkpoint hcheckpoint
  refine ⟨?_, hroom checkpoint hcheckpoint⟩
  rw [Log.nextSeal]
  omega

/-- The clock is past the numbers of the seals and images that are found in the files, and there are
numbers left for two more. -/
def Timely (ix : Indexer) (now : Nat) : Prop :=
  ∀ checkpoint, ix.checkpoint = some checkpoint → ∃ floor, SealsEnd checkpoint.directory floor ∧
    floor < checkpoint.log.nextSeal now ∧ checkpoint.log.nextSeal now + 1 < 2 ^ 64

/-- The numbers of seals that files have, and the one that comes next. -/
structure SealNumbers where
  sealed : List Nat
  image : Option Nat
  next : Nat
deriving DecidableEq

def sealNumbers (ix : Indexer) (now : Nat) : Option SealNumbers :=
  ix.checkpoint.map fun checkpoint => {
    sealed := (Log.sealedFiles checkpoint.directory).map Prod.fst
    image := (ImageFile.load checkpoint.directory).toOption.join.map Image.sealId
    next := checkpoint.log.nextSeal now }

theorem hasRoom_of_sealNumbers {numbers : SealNumbers} (h : ix.sealNumbers now = some numbers)
    (hlt : numbers.next + 1 < 2 ^ 64) : ix.HasRoom now := by
  intro checkpoint hcheckpoint
  rw [sealNumbers, hcheckpoint] at h
  obtain rfl := Option.some.inj h
  exact hlt

theorem timely_of_sealNumbers {numbers : SealNumbers} (h : ix.sealNumbers now = some numbers)
    (hpos : 0 < numbers.next) (hsealed : ∀ id ∈ numbers.sealed, id < numbers.next)
    (himage : ∀ id ∈ numbers.image, id < numbers.next) (hlt : numbers.next + 1 < 2 ^ 64) :
    ix.Timely now := by
  intro checkpoint hcheckpoint
  rw [sealNumbers, hcheckpoint] at h
  obtain rfl := Option.some.inj h
  refine ⟨checkpoint.log.nextSeal now - 1, ⟨fun item hitem => ?_, fun image hload => ?_⟩,
    Nat.sub_one_lt_of_lt hpos, hlt⟩
  · exact Nat.le_sub_one_of_lt (hsealed item.1 (List.mem_map_of_mem hitem))
  · exact Nat.le_sub_one_of_lt (himage image.sealId
      (congrArg (fun result => (Except.toOption result).join.map Image.sealId) hload))

theorem Finds.exists_canSeal {store : IndexStore} (h : Finds signature feedEpoch floor ix store)
    (htimely : ix.Timely now) :
    ∃ newer, Finds signature feedEpoch newer ix store ∧ ix.CanSeal newer now 1 := by
  cases hcheckpoint : ix.checkpoint with
  | none =>
      refine ⟨floor, h, fun checkpoint hsome => ?_⟩
      rw [hcheckpoint] at hsome
      cases hsome
  | some checkpoint =>
      obtain ⟨newer, hseals, hclock, hlt⟩ := htimely checkpoint hcheckpoint
      obtain ⟨history, hkept⟩ := h checkpoint hcheckpoint
      refine ⟨newer, fun other hother => ?_, fun other hother => ?_⟩
      · obtain rfl := Option.some.inj (hcheckpoint.symm.trans hother)
        exact ⟨history, hkept.withFloor hseals⟩
      · obtain rfl := Option.some.inj (hcheckpoint.symm.trans hother)
        exact ⟨hclock, hlt⟩

/-- The position of an index is not beyond the end of the feed that it follows. -/
theorem Follows.seq_le_tailPosition (h : Follows view built ix (backing feed)) (p : Nat) :
    ix.position.seq p ≤ (ChangeFeed.tailPosition feed).seq p := by
  rw [SharedFeed.tailPosition_eq]
  by_cases hp : p ∈ ix.position
  · rw [Position.seq_upTo _ (h.lt_of_mem p hp)]
    exact h.seq_le p
  · rw [Position.seq_of_not_mem hp]
    exact Nat.zero_le _

theorem Finds.shows {last : Indexer} (h : Finds signature feedEpoch floor ix last.store)
    (hsame : ix.checkpoint.isSome → last.ReadsBack)
    (hfollows : Follows view built last (backing feed)) {checkpoint : Checkpoint}
    (hcheckpoint : ix.checkpoint = some checkpoint) {recovered : Recovered}
    (hrecover : (checkpoint.recover (ChangeFeed.tailPosition feed)).1 = .ok (some recovered)) :
    recovered.Shows last.position last.store.current.contents := by
  obtain ⟨history, hkept⟩ := h checkpoint hcheckpoint
  rcases hkept.recover_cases (hsame (by rw [hcheckpoint]; rfl)) hfollows.seq_le_tailPosition with
    ⟨found, past, hfound, -, hshows⟩ | ⟨answer, after, hfound, hnone, -⟩
  · rw [hfound] at hrecover
    cases hrecover
    exact hshows
  · rw [hfound] at hrecover
    exact absurd hrecover (hnone recovered)

/-- What was recovered from files is what they tell. -/
theorem kept_takeOver (ix : Indexer) {checkpoint : Checkpoint} {store : IndexStore} {past : History}
    (h : Session.Kept signature feedEpoch ⟨checkpoint, store, some past, floor⟩)
    {recovered : Recovered} (hshows : recovered.Shows store.position store.current.contents) :
    Session.Kept signature feedEpoch
      ⟨checkpoint, (ix.takeOver checkpoint recovered).store, some past, floor⟩ := by
  have hholds := IndexStore.holds_replaceAll ix.store hshows.lists.nodup recovered.position
  rw [hshows.lists.setAll_eq] at hholds
  obtain ⟨hposition, hcontents⟩ := h.current past rfl
  refine Session.kept_of_holds h.signature_eq h.feedEpoch_eq h.stored hholds ?_ ?_
  · change recovered.position.Fits
    rw [hshows.position_eq]
    exact h.fits
  · rintro _ ⟨⟩
    exact ⟨hposition.trans hshows.position_eq.symm, hcontents⟩

/-- An indexer that starts from the files of the last one goes on with them, or they make way for
what it loads. -/
theorem filed_startUp {last : Indexer} (h : Finds signature feedEpoch floor ix last.store)
    (hsame : ix.checkpoint.isSome → last.ReadsBack)
    (hfollows : Follows view built last (backing feed)) (hseal : ix.CanSeal floor now 0)
    (hfits : (backing (ix.startUp feed now).feed).Fits) :
    Filed signature feedEpoch floor (ix.startUp feed now).indexer := by
  cases hcheckpoint : ix.checkpoint with
  | none =>
      have hwritable : Writable signature feedEpoch floor { ix with state := .catchingUp } := by
        intro checkpoint hsome
        rw [hcheckpoint] at hsome
        cases hsome
      rw [startUp_eq hcheckpoint] at hfits ⊢
      exact hwritable.bulkLoad hseal hfits
  | some checkpoint =>
      obtain ⟨history, hkept⟩ := h checkpoint hcheckpoint
      rcases hkept.recover_cases (hsame (by rw [hcheckpoint]; rfl))
        hfollows.seq_le_tailPosition with ⟨recovered, past, hrecover, rfl, hshows⟩ |
        ⟨answer, after, hrecover, hnone, hwritable, hlast⟩
      · obtain ⟨hclock, hlt⟩ := hseal checkpoint hcheckpoint
        have hfound := kept_takeOver ix hkept hshows
        rw [startUp_of_recovered hcheckpoint hrecover]
        split
        next =>
          split
          next hwrite => exact filed_of_writeSnapshot hfound hclock hlt rfl (by rw [hwrite]; rfl)
          next hwrite => exact filed_of_writeSnapshot hfound hclock hlt rfl (by rw [hwrite]; rfl)
        next =>
          rintro _ ⟨⟩
          exact ⟨_, hfound⟩
      · rw [startUp_of_not_recovered hcheckpoint hrecover hnone] at hfits ⊢
        refine Writable.bulkLoad ?_ (hseal.of_lastSeal_eq hcheckpoint rfl hlast) hfits
        rintro _ ⟨⟩
        exact hwritable

end

end Indexer

end ViewIndex
