import ViewIndex.Proofs.Indexer.Filing

/-!
# Indexers that agree

Two indexers of a view that have caught up with one store have the same entries, no matter when each
was started, how it cut the events into batches and whether it was stored meanwhile. The exception
is a document on which the map fails now: one indexer may still have the entries from before, while
another one that was built since has none.
-/

namespace ViewIndex

open MemoryStore (Extends)
open SharedFeed (backing)
open Storage

/-- The map does not fail on the current revision of a document, if there is one. -/
def View.Emits (view : View) (store : MemoryStore) (docId : String) : Prop :=
  ∀ doc, store.get? docId = some doc → ∃ emissions, view.emissions doc = .ok emissions

namespace Indexer

/-- The indexers of a view that the writers of a store, the clock and restarts can lead to, each
with the position at which its index was last built from all documents and the time of its last
restart, zero before the first. An operation works on a feed of the store, to which others may write
meanwhile, and it may fail. An indexer that is stored starts in an empty directory, and the one
after a restart in the directory of the last one. At a restart the clock is past the numbers of the
seals that are found, and later on it does not go back behind the restart. -/
inductive Tracks (view : View) (feedEpoch : UInt64) :
    Indexer → Position → Nat → MemoryStore → Prop where
  | create (config : Config) (partitions : Nat) (epoch : UInt64) :
      Tracks view feedEpoch (create view config none) ∅ 0 (.empty partitions epoch)
  | createStored (config : Config) {checkpoint : Checkpoint}
      (hopen : Checkpoint.openIn {} view.signature feedEpoch = .ok checkpoint) (partitions : Nat)
      (epoch : UInt64) :
      Tracks view feedEpoch (create view config (some checkpoint)) ∅ 0 (.empty partitions epoch)
  | write {ix : Indexer} {built : Position} {opened : Nat} {store : MemoryStore}
      (h : Tracks view feedEpoch ix built opened store) (mutation : Mutation) :
      Tracks view feedEpoch ix built opened (store.mutate mutation)
  | stop {ix : Indexer} {built : Position} {opened : Nat} {store : MemoryStore}
      (h : Tracks view feedEpoch ix built opened store) :
      Tracks view feedEpoch ix.stop built opened store
  | bulkLoad {φ : Type} [SharedFeed φ] {ix : Indexer} {built : Position} {opened : Nat} {feed : φ}
      (h : Tracks view feedEpoch ix built opened (backing feed)) {now : Nat}
      (hclock : opened ≤ now) (hroom : ix.HasRoom now) :
      Tracks view feedEpoch (ix.bulkLoad feed now).indexer (ix.bulkLoad feed now).indexer.position
        opened (backing (ix.bulkLoad feed now).feed)
  | rebuild {φ : Type} [SharedFeed φ] {ix : Indexer} {built : Position} {opened : Nat} {feed : φ}
      (h : Tracks view feedEpoch ix built opened (backing feed)) {now : Nat}
      (hclock : opened ≤ now) (hroom : ix.HasRoom now) :
      Tracks view feedEpoch (ix.rebuild feed now).indexer
        (ix.builtAfter (ix.rebuild feed now).indexer built) opened
        (backing (ix.rebuild feed now).feed)
  | verifyAndRepair {φ : Type} [SharedFeed φ] {ix : Indexer} {built : Position} {opened : Nat}
      {feed : φ} (h : Tracks view feedEpoch ix built opened (backing feed)) {now : Nat}
      (hclock : opened ≤ now) (hroom : ix.HasRoom now) :
      Tracks view feedEpoch (ix.verifyAndRepair feed now).indexer
        (ix.builtAfter (ix.verifyAndRepair feed now).indexer built) opened
        (backing (ix.verifyAndRepair feed now).feed)
  | step {φ : Type} [SharedFeed φ] {ix : Indexer} {built : Position} {opened : Nat} {feed : φ}
      (h : Tracks view feedEpoch ix built opened (backing feed)) {now : Nat}
      (hclock : opened ≤ now) (hroom : ix.HasRoom now) :
      Tracks view feedEpoch (ix.step feed now).indexer
        (ix.builtAfter (ix.step feed now).indexer built) opened (backing (ix.step feed now).feed)
  | startUp {φ : Type} [SharedFeed φ] {ix : Indexer} {built : Position} {opened : Nat} {feed : φ}
      (h : Tracks view feedEpoch ix built opened (backing feed)) {now : Nat}
      (hclock : opened ≤ now) (hroom : ix.HasRoom now)
      (hsame : ix.checkpoint.isSome → ix.ReadsBack) :
      Tracks view feedEpoch (ix.startUp feed now).indexer (ix.builtAtStart feed now built) opened
        (backing (ix.startUp feed now).feed)
  | restart {φ : Type} [SharedFeed φ] {ix : Indexer} {built : Position} {last : Nat} {feed : φ}
      (h : Tracks view feedEpoch ix built last (backing feed)) (hsame : ix.ReadsBack)
      {stored opened : Checkpoint} (hstored : ix.checkpoint = some stored)
      (hopen : Checkpoint.openIn stored.directory view.signature feedEpoch = .ok opened)
      {next : Indexer} {config : Config} (hnext : next = Indexer.create view config (some opened))
      {now : Nat} (htimely : next.Timely now) :
      Tracks view feedEpoch (next.startUp feed now).indexer (next.builtAtStart feed now built) now
        (backing (next.startUp feed now).feed)

section

variable {view : View} {feedEpoch : UInt64} {ix : Indexer} {built : Position} {opened : Nat}
  {store : MemoryStore}

theorem Tracks.wellFormed (h : Tracks view feedEpoch ix built opened store) :
    store.WellFormed := by
  induction h with
  | create config partitions epoch => exact MemoryStore.wellFormed_empty partitions epoch
  | createStored config hopen partitions epoch =>
      exact MemoryStore.wellFormed_empty partitions epoch
  | write h mutation ih => exact ih.mutate mutation
  | stop h ih => exact ih
  | bulkLoad h hclock hroom ih => exact ((grows_bulkLoad _ _ _).spec ih).1
  | rebuild h hclock hroom ih => exact ((grows_rebuild _ _ _).spec ih).1
  | verifyAndRepair h hclock hroom ih => exact ((grows_verifyAndRepair _ _ _).spec ih).1
  | step h hclock hroom ih => exact ((grows_step _ _ _).spec ih).1
  | startUp h hclock hroom hsame ih => exact ((grows_startUp _ _ _).spec ih).1
  | restart h hsame hstored hopen hnext htimely ih => exact ((grows_startUp _ _ _).spec ih).1

/-- The numbers of seals from before the last restart are below its time, and before the first one
there are none. -/
def Anchored (signature feedEpoch : UInt64) (opened : Nat) (ix : Indexer) : Prop :=
  ∃ floor, floor < max opened 1 ∧ Filed signature feedEpoch floor ix

/-- What goes for an indexer before an operation whose store fits its numbers in the end. -/
theorem Tracks.before {φ : Type} [SharedFeed φ] {feed later : φ}
    (h : Tracks view feedEpoch ix built opened (backing feed)) (hgrows : Grows feed later)
    (hfits : (backing later).Fits) {now : Nat} (hclock : opened ≤ now) (hroom : ix.HasRoom now)
    (ih : (backing feed).Fits → Follows view built ix (backing feed) ∧
      Anchored view.signature feedEpoch opened ix) :
    Follows view built ix (backing feed) ∧ ∃ floor, floor < max opened 1 ∧
      Filed view.signature feedEpoch floor ix ∧ ix.CanSeal floor now 1 := by
  obtain ⟨hfollows, floor, hfloor, hfiled⟩ :=
    ih (hfits.of_extends h.wellFormed (hgrows.spec h.wellFormed).2)
  exact ⟨hfollows, floor, hfloor, hfiled, canSeal_of_hasRoom hfloor hclock hroom⟩

/-- By induction on the run. The numbers of a store that fits them fitted all the while. -/
theorem Tracks.follows (h : Tracks view feedEpoch ix built opened store) (hfits : store.Fits) :
    Follows view built ix store ∧ Anchored view.signature feedEpoch opened ix := by
  induction h with
  | create config partitions epoch =>
      exact ⟨follows_create view config none hfits.wellFormed.toNumbered, 0, Nat.one_pos,
        fun checkpoint hcheckpoint => by cases hcheckpoint⟩
  | createStored config hopen partitions epoch =>
      refine ⟨follows_create view config _ hfits.wellFormed.toNumbered, 0, Nat.one_pos, ?_⟩
      rintro _ ⟨⟩
      exact ⟨none, Session.kept_start view.name view.reducer hopen⟩
  | write h mutation ih =>
      have hstore := h.wellFormed
      have hextends := MemoryStore.extends_mutate hstore mutation
      obtain ⟨hfollows, hfiled⟩ := ih (hfits.of_extends hstore hextends)
      exact ⟨hfollows.extends hstore.toNumbered hfits.wellFormed.toNumbered hextends, hfiled⟩
  | stop h ih =>
      obtain ⟨hfollows, hfiled⟩ := ih hfits
      exact ⟨{ hfollows with }, hfiled⟩
  | bulkLoad h hclock hroom ih =>
      obtain ⟨hfollows, floor, hfloor, hfiled, hseal⟩ :=
        h.before (grows_bulkLoad _ _ _) hfits hclock hroom ih
      exact ⟨follows_bulkLoad hfollows.view_eq h.wellFormed _, floor, hfloor,
        hfiled.writable.bulkLoad (hseal.mono (Nat.zero_le 1)) hfits⟩
  | rebuild h hclock hroom ih =>
      obtain ⟨hfollows, floor, hfloor, hfiled, hseal⟩ :=
        h.before (grows_rebuild _ _ _) hfits hclock hroom ih
      exact ⟨follows_rebuild hfollows.view_eq h.wellFormed _ _, floor, hfloor,
        hfiled.writable.rebuild (hseal.mono (Nat.zero_le 1)) hfits⟩
  | verifyAndRepair h hclock hroom ih =>
      obtain ⟨hfollows, floor, hfloor, hfiled, hseal⟩ :=
        h.before (grows_verifyAndRepair _ _ _) hfits hclock hroom ih
      exact ⟨hfollows.verifyAndRepair h.wellFormed _, floor, hfloor,
        hfiled.verifyAndRepair (hseal.mono (Nat.zero_le 1)) hfits⟩
  | step h hclock hroom ih =>
      obtain ⟨hfollows, floor, hfloor, hfiled, hseal⟩ :=
        h.before (grows_step _ _ _) hfits hclock hroom ih
      exact ⟨hfollows.step h.wellFormed _, floor, hfloor,
        hfiled.step hseal hfollows h.wellFormed hfits⟩
  | startUp h hclock hroom hsame ih =>
      obtain ⟨hfollows, floor, hfloor, hfiled, hseal⟩ :=
        h.before (grows_startUp _ _ _) hfits hclock hroom ih
      refine ⟨hfollows.startUp h.wellFormed hfollows.view_eq ?_ _, floor, hfloor,
        filed_startUp hfiled hsame hfollows (hseal.mono (Nat.zero_le 1)) hfits⟩
      intro before recovered hcheckpoint hrecover
      exact Finds.shows hfiled hsame hfollows hcheckpoint hrecover
  | @restart _ _ ix _ _ _ h hsame stored opened hstored hopen next config hnext now htimely ih =>
      obtain ⟨hfollows, floor, -, hfiled⟩ :=
        ih (hfits.of_extends h.wellFormed ((grows_startUp _ _ _).spec h.wellFormed).2)
      have hfinds : Finds view.signature feedEpoch (stored.log.given floor) next ix.store := by
        subst hnext
        rintro _ ⟨⟩
        obtain ⟨history, hkept⟩ := hfiled stored hstored
        exact ⟨history, hkept.opened hopen⟩
      obtain ⟨newer, hfinds, hseal⟩ := hfinds.exists_canSeal htimely
      have hnewer : newer < max now 1 := by
        have hclock := (hseal opened (by rw [hnext]; rfl)).1
        rwa [Log.nextSeal, Checkpoint.lastSeal_openIn hopen] at hclock
      refine ⟨hfollows.startUp h.wellFormed (by rw [hnext]; rfl) ?_ _, newer, hnewer,
        filed_startUp hfinds (fun _ => hsame) hfollows (hseal.mono (Nat.zero_le 1)) hfits⟩
      intro before recovered hcheckpoint hrecover
      exact hfinds.shows (fun _ => hsame) hfollows hcheckpoint hrecover

/-! ## At the end of the feed -/

/-- An indexer that does not lag is at the end of every partition. -/
theorem Follows.seq_eq_tail (h : Follows view built ix store) (hlag : ix.lag store = 0) {p : Nat}
    (hp : p < store.partitions) : ix.position.seq p = store.tail p := by
  rw [lag, SharedFeed.tailPosition_eq] at hlag
  exact Nat.le_antisymm (h.seq_le p) (Position.le_seq_of_lag_eq_zero hlag hp)

theorem Follows.contents_eq (h : Follows view built ix store) :
    ix.store.current.contents = view.contentsSince store built ix.position :=
  Checkpoint.contents_eq h.holds

/-- The map does not fail on the last event of a document if it does not on the document. -/
theorem settled_of_emits (hstore : store.WellFormed) {docId : String}
    (hemits : view.Emits store docId) (event : ChangeEvent)
    (hlast : store.lastEvent? docId (store.tail (store.partitionOf docId)) = some event) :
    (view.updateAfter? event).isSome := by
  have hdocs := hstore.docs docId
  rw [hlast, Option.bind_some] at hdocs
  cases hdoc : event.document? with
  | none => simp [View.updateAfter?, View.evaluateEvent, hdoc]
  | some doc =>
      have hupdate : view.updateAfter? event = view.update? doc := by
        simp only [View.updateAfter?, View.evaluateEvent, hdoc, View.update?]
      rw [hupdate, View.isSome_update?_iff]
      exact hemits doc (hdocs.trans hdoc)

/-- A document on which the map does not fail now has the entries of its current revision. -/
theorem Follows.contents_of_emits (h : Follows view built ix store) (hstore : store.WellFormed)
    (hlag : ix.lag store = 0) {docId : String} (hemits : view.Emits store docId) :
    ix.store.current.contents docId = ((store.get? docId).map view.entriesOf).getD [] := by
  have hend := h.seq_eq_tail hlag (MemoryStore.partitionOf_lt hstore.toNumbered docId)
  rw [h.contents_eq, View.contentsSince_of_settled hstore.toNumbered h.built_le hend
    (settled_of_emits hstore hemits), View.entriesAfter, ← hstore.docs, MemoryStore.get?]

/-- At the end of the feed it matters where an index was built, but not how it got there from
there. -/
theorem Follows.contents_unique {other : Indexer} {builtOther : Position}
    (h : Follows view built ix store) (hother : Follows view builtOther other store)
    (hstore : store.Numbered) (hlag : ix.lag store = 0) (hlagOther : other.lag store = 0)
    (hbuilt : ∀ p < store.partitions, built.seq p = builtOther.seq p) :
    ix.store.current.contents = other.store.current.contents := by
  rw [h.contents_eq, hother.contents_eq]
  funext docId
  have hp := MemoryStore.partitionOf_lt hstore docId
  rw [View.contentsSince_eq, View.contentsSince_eq, View.contentsAt, View.contentsAt, hbuilt _ hp,
    h.seq_eq_tail hlag hp, hother.seq_eq_tail hlagOther hp]

/-- Two indexers that have caught up with one store have the same entries of every document on which
the map does not fail now, namely those of its current revision. Of another document each has the
entries by the last event on which the map does not fail; or it has none, and then the map failed on
the revision that its index was built from. So they have the same entries altogether if the map
fails on no current document, or if they were last built at the same position. -/
theorem agree_of_tracks {otherEpoch : UInt64} {other : Indexer} {builtOther : Position}
    {openedOther : Nat} (h : Tracks view feedEpoch ix built opened store)
    (hother : Tracks view otherEpoch other builtOther openedOther store) (hfits : store.Fits)
    (hlag : ix.lag store = 0) (hlagOther : other.lag store = 0) :
    (∀ docId, view.Emits store docId →
      ix.store.current.contents docId = other.store.current.contents docId ∧
      ix.store.current.contents docId = ((store.get? docId).map view.entriesOf).getD []) ∧
    (∀ docId, ix.store.current.contents docId = view.entriesAfter (view.lastSettled? store docId) ∨
      ix.store.current.contents docId = [] ∧ ∃ event,
        store.lastEvent? docId (built.seq (store.partitionOf docId)) = some event ∧
        view.updateAfter? event = none) ∧
    ((∀ docId, view.Emits store docId) ∨
        (∀ p < store.partitions, built.seq p = builtOther.seq p) →
      ix.store.current.entries = other.store.current.entries) := by
  have hstore := hfits.wellFormed
  obtain ⟨hfollows, -⟩ := h.follows hfits
  obtain ⟨hfollowsOther, -⟩ := hother.follows hfits
  have hemitted (docId : String) (hemits : view.Emits store docId) :
      ix.store.current.contents docId = other.store.current.contents docId := by
    rw [hfollows.contents_of_emits hstore hlag hemits,
      hfollowsOther.contents_of_emits hstore hlagOther hemits]
  refine ⟨fun docId hemits => ?_, fun docId => ?_, fun hsame => ?_⟩
  · exact ⟨hemitted docId hemits, hfollows.contents_of_emits hstore hlag hemits⟩
  · rw [hfollows.contents_eq]
    exact View.contentsSince_eq_or hstore.toNumbered hfollows.built_le
      (hfollows.seq_eq_tail hlag (MemoryStore.partitionOf_lt hstore.toNumbered docId))
  · have hcontents : ix.store.current.contents = other.store.current.contents := by
      rcases hsame with hemits | hbuilt
      · exact funext fun docId => hemitted docId (hemits docId)
      · exact hfollows.contents_unique hfollowsOther hstore.toNumbered hlag hlagOther hbuilt
    have hholds := hfollows.holds
    rw [← hfollows.contents_eq, hcontents, hfollowsOther.contents_eq] at hholds
    exact hholds.entries_unique hfollowsOther.holds

end

/-! ## A document that the map refuses -/

namespace Refused

/-- Lists the ids of documents that have a content, and refuses the others. -/
def view : View where
  name := "ids"
  map doc :=
    match doc.content with
    | .null => .refused "no content"
    | _ => .emitted [⟨[.text doc.id], .null⟩]

/-- The first document is written, then its content is taken away, and then there is another one. -/
def early : MemoryStore := ((MemoryStore.empty 1 0).put "a" (.bool true)).1

def emptied : MemoryStore := (early.put "a" .null).1

def late : MemoryStore := (emptied.put "b" (.bool true)).1

/-- An indexer that is stored is started early and takes in that the content is taken away. -/
def opened : Checkpoint :=
  ⟨view.signature, 0, .ofDirectory (({} : Directory).setContent Log.fileName Log.header) 0⟩

def started : Indexer := ((create view {} (some opened)).startUp early 1).indexer

def stepped : Indexer := (started.step emptied 2).indexer

/-- Then it restarts and goes on. -/
def restarted (reopened : Checkpoint) : Indexer :=
  ((create view {} (some reopened)).startUp emptied 3).indexer

def resumed (reopened : Checkpoint) : Indexer := ((restarted reopened).step late 4).indexer

/-- Another one is started when the store is as it is. -/
def startedAt (store : MemoryStore) : Indexer :=
  ((create view {} none).startUp store 1).indexer

theorem tracks_stepped : ∃ built, Tracks view 0 stepped built 0 emptied := by
  have hcreated : Tracks view 0 (create view {} (some opened)) ∅ 0 (backing early) :=
    (Tracks.createStored {} rfl 1 0).write (.put "a" (.bool true))
  have hseals : (create view {} (some opened)).sealNumbers 1 = some ⟨[], none, 1⟩ := by
    decide +kernel
  have hstarted := hcreated.startUp (Nat.zero_le 1) (hasRoom_of_sealNumbers hseals (by decide))
    fun _ => by unfold ReadsBack; decide +kernel
  rw [feed_startUp] at hstarted
  have hwritten : Tracks view 0 started _ 0 (backing emptied) := hstarted.write (.put "a" .null)
  have hseals : started.sealNumbers 2 = some ⟨[], some 1, 2⟩ := by decide +kernel
  have hstepped := hwritten.step (Nat.zero_le 2) (hasRoom_of_sealNumbers hseals (by decide))
  rw [feed_step] at hstepped
  exact ⟨_, hstepped⟩

theorem tracks_resumed : ∃ stored reopened built, stepped.checkpoint = some stored ∧
    Checkpoint.openIn stored.directory view.signature 0 = .ok reopened ∧
    (resumed reopened).lag late = 0 ∧ Tracks view 0 (resumed reopened) built 3 late := by
  obtain ⟨built, hstepped⟩ := tracks_stepped
  have hsteppedAt : Tracks view 0 stepped built 0 (backing emptied) := hstepped
  have hsame : stepped.ReadsBack := by unfold ReadsBack; decide +kernel
  have hfound : (stepped.checkpoint.bind fun stored =>
      (Checkpoint.openIn stored.directory view.signature 0).toOption.map fun reopened =>
        ((create view {} (some reopened)).sealNumbers 3, (restarted reopened).sealNumbers 4,
          (resumed reopened).lag late))
      = some (some ⟨[], some 1, 3⟩, some ⟨[], some 3, 4⟩, 0) := by decide +kernel
  obtain ⟨stored, hstored, hfound⟩ := Option.bind_eq_some_iff.mp hfound
  obtain ⟨reopened, hreopened, hnumbers⟩ := Option.map_eq_some_iff.mp hfound
  obtain ⟨hseals, hnumbers⟩ := Prod.mk.inj hnumbers
  obtain ⟨hsealsLater, hlag⟩ := Prod.mk.inj hnumbers
  have hopen : Checkpoint.openIn stored.directory view.signature 0 = .ok reopened := by
    generalize Checkpoint.openIn stored.directory view.signature 0 = result at hreopened ⊢
    cases result with
    | error e => cases hreopened
    | ok opened => exact congrArg Except.ok (Option.some.inj hreopened)
  have hrestarted := hsteppedAt.restart hsame hstored hopen rfl
    (timely_of_sealNumbers hseals (by decide) (by decide) (by decide) (by decide))
  rw [feed_startUp] at hrestarted
  have hwritten : Tracks view 0 (restarted reopened) _ 3 (backing late) :=
    hrestarted.write (.put "b" (.bool true))
  have hresumed := hwritten.step (show 3 ≤ 4 by decide)
    (hasRoom_of_sealNumbers hsealsLater (by decide))
  rw [feed_step] at hresumed
  exact ⟨stored, reopened, _, hstored, hopen, hlag, hresumed⟩

theorem tracks_startedAt {store : MemoryStore}
    (h : Tracks view 0 (create view {} none) ∅ 0 (backing store)) :
    ∃ built, Tracks view 0 (startedAt store) built 0 store := by
  have hroom : (create view {} none).HasRoom 1 := fun _ hnone => by cases hnone
  have hstarted := h.startUp (Nat.zero_le 1) hroom fun hnone => by cases hnone
  rw [feed_startUp] at hstarted
  exact ⟨_, hstarted⟩

theorem tracks_create : Tracks view 0 (create view {} none) ∅ 0 emptied :=
  ((Tracks.create {} 1 0).write (.put "a" (.bool true))).write (.put "a" .null)

theorem fits_late : late.Fits := by
  apply MemoryStore.WellFormed.fits
  · exact MemoryStore.wellFormed_put (MemoryStore.wellFormed_put
      (MemoryStore.wellFormed_put (MemoryStore.wellFormed_empty 1 0) _ _) _ _) _ _
  · decide
  · decide +kernel

theorem emits_second : view.Emits late "b" := by
  have hcontent : (late.get? "b").map Document.content = some (.bool true) := by decide +kernel
  intro doc hdoc
  rw [hdoc, Option.map_some] at hcontent
  refine ⟨[⟨[.text doc.id], .null⟩], ?_⟩
  simp [View.emissions, View.appliesTo, view, Option.some.inj hcontent]

/-- The indexer that has been restarted agrees with one that is started in the end on the second
document. -/
theorem agree_on_second : ∃ stored reopened, stepped.checkpoint = some stored ∧
    Checkpoint.openIn stored.directory view.signature 0 = .ok reopened ∧
    (resumed reopened).lag late = 0 ∧ (startedAt late).lag late = 0 ∧
    (resumed reopened).store.current.contents "b"
      = (startedAt late).store.current.contents "b" := by
  obtain ⟨stored, reopened, _, hstored, hopen, hlag, hresumed⟩ := tracks_resumed
  have hcreated : Tracks view 0 (create view {} none) ∅ 0 (backing late) :=
    tracks_create.write (.put "b" (.bool true))
  obtain ⟨_, hstarted⟩ := tracks_startedAt hcreated
  have hlagStarted : (startedAt late).lag late = 0 := by decide +kernel
  have hagree := agree_of_tracks hresumed hstarted fits_late hlag hlagStarted
  exact ⟨stored, reopened, hstored, hopen, hlag, hlagStarted, (hagree.1 "b" emits_second).1⟩

/-- An indexer that has taken in that the content is taken away and one that is started then are not
behind, but only one of them has the entry of the first document from before. -/
theorem not_agree_on_first : ∃ built builtAfter, Tracks view 0 stepped built 0 emptied ∧
    Tracks view 0 (startedAt emptied) builtAfter 0 emptied ∧ 0 < stepped.config.batchSize ∧
    0 < (startedAt emptied).config.batchSize ∧ stepped.lag emptied = 0 ∧
    (startedAt emptied).lag emptied = 0 ∧
    stepped.store.current.entries ≠ (startedAt emptied).store.current.entries := by
  obtain ⟨built, hstepped⟩ := tracks_stepped
  obtain ⟨builtAfter, hstarted⟩ := tracks_startedAt tracks_create
  exact ⟨built, builtAfter, hstepped, hstarted, by decide +kernel, by decide +kernel,
    by decide +kernel, by decide +kernel, by decide +kernel⟩

end Refused

end Indexer

end ViewIndex
