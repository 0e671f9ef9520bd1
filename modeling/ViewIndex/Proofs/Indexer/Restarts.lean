import ViewIndex.Proofs.Indexer.Storing

/-!
# Restarts after a torn frame

A crash tears the frame of a batch that is being appended. The next indexer starts from what is left
and goes on with the feed; the one after it finds everything that was committed meanwhile, provided
that the bytes of the torn frame are out of the way by then. They are once an image was written.
An indexer that starts from a torn log writes one at once if it drops a record or applies a batch;
a tear within the first eight bytes of the frame is not noticed.
-/

namespace ViewIndex

open Storage

/-- The directory that is left when only some bytes of a batch get to the log. -/
def Storage.Session.tear (s : Session) (commit : Commit) (cut : Nat) : Directory :=
  s.directory.extend s.checkpoint.log.handle ((Log.frame commit.batch).take cut)

namespace Indexer

section

variable {φ : Type} [ChangeFeed φ] {Good : φ → Prop} {signature feedEpoch : UInt64}
  {floor now : Nat} {view : View} {config : Config}

/-- An indexer started from what is stored and has followed a feed since, whatever the feed was by
then, and never failed to store something. -/
inductive Serves (Good : φ → Prop) (floor : Nat) (view : View) (config : Config)
    (checkpoint : Checkpoint) : Indexer → Prop where
  | startUp {feed : φ} (hgood : Good feed) {now : Nat}
      (hseal : (create view config (some checkpoint)).CanSeal floor now 0)
      (hresult : ((create view config (some checkpoint)).startUp feed now).result = .ok ()) :
      Serves Good floor view config checkpoint
        ((create view config (some checkpoint)).startUp feed now).indexer
  | step {ix : Indexer} (h : Serves Good floor view config checkpoint ix) {feed : φ}
      (hgood : Good feed) {now : Nat} (hseal : ix.CanSeal floor now 1)
      (hresult : ∀ e, (ix.step feed now).result ≠ .error (.storage e)) :
      Serves Good floor view config checkpoint (ix.step feed now).indexer

/-! ## Starting -/

section

variable {checkpoint after : Checkpoint} {feed : φ}

/-- A new indexer that looks for what is stored. -/
def starting (view : View) (config : Config) (checkpoint : Checkpoint) : Indexer :=
  { create view config (some checkpoint) with state := .catchingUp }

/-- If nothing was recovered, everything is built anew. -/
theorem startUp_of_not_some {answer : Except StorageError (Option Recovered)}
    (hrecover : checkpoint.recover (ChangeFeed.tailPosition feed) = (answer, after))
    (hnone : ∀ recovered, answer ≠ .ok (some recovered)) :
    (create view config (some checkpoint)).startUp feed now
      = (starting view config after).bulkLoad feed now :=
  startUp_of_not_recovered rfl hrecover hnone

/-- The indexer with what was recovered. -/
def resume (view : View) (config : Config) (checkpoint : Checkpoint) (recovered : Recovered) :
    Indexer :=
  { starting view config checkpoint with
    store := (IndexStore.empty view.name view.reducer).replaceAll recovered.docs
      recovered.position }

theorem startUp_of_some {recovered : Recovered}
    (hrecover : checkpoint.recover (ChangeFeed.tailPosition feed) = (.ok (some recovered), after)) :
    (create view config (some checkpoint)).startUp feed now
      = if 0 < recovered.replayed || 0 < recovered.truncated then
          match after.writeSnapshot (resume view config after recovered).store.current now with
          | (.ok (), written) => ⟨.ok (), resume view config written recovered, feed⟩
          | (.error e, written) =>
              ⟨.error (.storage e), resume view config written recovered, feed⟩
        else ⟨.ok (), resume view config after recovered, feed⟩ :=
  startUp_of_recovered rfl hrecover

end

/-! ## Starting from a torn log -/

section

variable {checkpoint : Checkpoint} {image : Option Image}
  {segments : List (Nat × List Storage.Batch)} {batches : List Storage.Batch} {feed : φ}

/-- Whatever an indexer holds, it can be stored in an open log. -/
theorem frayed_of_open (hopen : checkpoint.log.Open floor image segments batches) (more : Bytes)
    {ix : Indexer} (hcheckpoint : ix.checkpoint = some (checkpoint.fray more)) {contents : Contents}
    (hholds : ix.store.Holds contents) (hfits : ix.store.position.Fits) :
    Frayed checkpoint.signature checkpoint.feedEpoch floor ix := by
  rw [← Checkpoint.contents_eq hholds] at hholds
  exact ⟨checkpoint, more, image, segments, batches, hcheckpoint, rfl, rfl, hopen, hholds, hfits⟩

/-- Building anew leaves nothing of a torn log. -/
theorem stored_of_bulkLoad (hfeed : ChangeFeed.Orderly Good) (hgood : Good feed)
    (hopen : checkpoint.log.Open floor image segments batches) (more : Bytes)
    (hseal : (create view config (some (checkpoint.fray more))).CanSeal floor now 0)
    (hresult : ((starting view config (checkpoint.fray more)).bulkLoad feed now).result = .ok ()) :
    Stored checkpoint.signature checkpoint.feedEpoch floor
      ((starting view config (checkpoint.fray more)).bulkLoad feed now).indexer := by
  have hempty := IndexStore.holds_empty view.name view.reducer
  have hfrayed : Frayed checkpoint.signature checkpoint.feedEpoch floor
      (starting view config (checkpoint.fray more)) :=
    frayed_of_open hopen more rfl hempty Position.fits_empty
  have hstorage : ∀ e, ((starting view config (checkpoint.fray more)).bulkLoad feed now).result
      ≠ .error (.storage e) := by
    intro e herror
    rw [hresult] at herror
    cases herror
  rcases hfrayed.bulkLoad hfeed hgood hseal hstorage with ⟨-, hstored⟩ | ⟨hnot, -⟩
  · exact hstored
  · exact absurd hresult hnot

/-- If the log was discarded, there is nothing left of the torn frame. -/
theorem stored_of_resetLog (hfeed : ChangeFeed.Orderly Good) (hgood : Good feed)
    (hopen : checkpoint.log.Open floor image segments batches) {more : Bytes}
    (hseal : (create view config (some (checkpoint.fray more))).CanSeal floor now 0)
    (hrecover : (checkpoint.fray more).recover (ChangeFeed.tailPosition feed)
      = (.ok none, checkpoint.resetLog.2))
    (hresult : ((create view config (some (checkpoint.fray more))).startUp feed now).result
      = .ok ()) :
    Stored checkpoint.signature checkpoint.feedEpoch floor
      ((create view config (some (checkpoint.fray more))).startUp feed now).indexer := by
  obtain ⟨kept, cleared, hreset, hcleared, hlast⟩ := hopen.reset
  have hlog : checkpoint.resetLog.2 = Checkpoint.fray { checkpoint with log := cleared } [] := by
    rw [Checkpoint.resetLog, hreset, Checkpoint.fray, Log.fray_nil]
  rw [startUp_of_not_some hrecover fun _ => by simp, hlog] at hresult ⊢
  refine stored_of_bulkLoad hfeed hgood hcleared [] (hseal.of_lastSeal_eq rfl rfl ?_) hresult
  exact hlast

/-- If batches were applied or a record was dropped, a new image was written. -/
theorem sound_of_recovered (hopen : checkpoint.log.Open floor image segments batches) {more : Bytes}
    {recovered : Recovered} {contents : Contents} (hlists : Storage.Lists recovered.docs contents)
    (hfits : recovered.position.Fits)
    (hseal : (create view config (some (checkpoint.fray more))).CanSeal floor now 0)
    (hrecover : (checkpoint.fray more).recover (ChangeFeed.tailPosition feed)
      = (.ok (some recovered), checkpoint.fray more))
    (hresult : ((create view config (some (checkpoint.fray more))).startUp feed now).result
      = .ok ()) :
    Sound checkpoint.signature checkpoint.feedEpoch floor
      (recovered.replayed = 0 ∧ recovered.truncated = 0)
      ((create view config (some (checkpoint.fray more))).startUp feed now).indexer.batches
      ((create view config (some (checkpoint.fray more))).startUp feed now).indexer := by
  let resumed := resume view config (checkpoint.fray more) recovered
  have hholds : resumed.store.Holds (Contents.empty.setAll recovered.docs) :=
    IndexStore.holds_replaceAll _ hlists.nodup recovered.position
  have hfrayed : Frayed checkpoint.signature checkpoint.feedEpoch floor resumed :=
    frayed_of_open hopen more rfl hholds hfits
  rw [startUp_of_some hrecover] at hresult ⊢
  split at hresult
  next hdirty =>
    rw [if_pos hdirty]
    split at hresult
    next written hwrite => exact .inl (hfrayed.of_writeSnapshot hseal rfl hwrite rfl rfl)
    next => cases hresult
  next hclean =>
    rw [if_neg hclean]
    simp only [Bool.or_eq_true, decide_eq_true_eq, not_or, Nat.not_lt, Nat.le_zero] at hclean
    exact .inr ⟨hclean, hfrayed, rfl⟩

variable {history : Option History}

/-- Only a tear that is not noticed, with nothing before it that has to be applied, leaves the torn
frame in the log. -/
theorem sound_startUp (hfeed : ChangeFeed.Orderly Good) (hgood : Good feed)
    (hopen : checkpoint.log.Open floor image segments batches)
    (htells : Session.Tells checkpoint.signature checkpoint.feedEpoch
      ⟨image, segments, some batches⟩ history)
    {batch : Storage.Batch} (hframed : Log.Framed batch) {cut : Nat}
    (hcut : cut < (Log.frame batch).length) {opened : Checkpoint}
    (hopened : opened = checkpoint.fray ((Log.frame batch).take cut))
    (hseal : (create view config (some opened)).CanSeal floor now 0)
    (hresult : ((create view config (some opened)).startUp feed now).result = .ok ()) :
    Sound checkpoint.signature checkpoint.feedEpoch floor
      (cut < 8 ∧ ∃ past, history = some past ∧ past.Readable ∧ past.commits = [])
      ((create view config (some opened)).startUp feed now).indexer.batches
      ((create view config (some opened)).startUp feed now).indexer := by
  subst hopened
  cases history with
  | none =>
      have hnone : image = none := htells
      subst hnone
      exact .inl (stored_of_resetLog hfeed hgood hopen hseal
        (Checkpoint.recover_fray_of_none hopen _ _) hresult)
  | some past =>
      have hrecovers := Checkpoint.recovers_torn hopen htells hframed hcut
        (ChangeFeed.tailPosition feed)
      by_cases hreadable : past.Readable
      · by_cases htail : ∀ p, past.position.seq p ≤ (ChangeFeed.tailPosition feed).seq p
        · obtain ⟨docs, hrecover, hlists⟩ := hrecovers.readable hreadable htail
          have hfits : past.position.Fits := by
            obtain ⟨_, -, -, -, hstands⟩ := htells
            exact hstands.fits
          refine (sound_of_recovered hopen hlists hfits hseal hrecover hresult).imp ?_
          rintro ⟨hreplayed, htruncated⟩
          refine ⟨?_, past, rfl, hreadable, List.length_eq_zero_iff.mp hreplayed⟩
          by_contra hlong
          rw [if_neg hlong] at htruncated
          exact absurd htruncated Nat.one_ne_zero
        · simp only [not_forall, Nat.not_le] at htail
          have hrecover := hrecovers.ahead hreadable htail
          rw [Checkpoint.resetLog_fray hopen] at hrecover
          exact .inl (stored_of_resetLog hfeed hgood hopen hseal hrecover hresult)
      · have hrecover := hrecovers.unreadable hreadable
        rw [startUp_of_not_some hrecover fun _ => by simp] at hresult ⊢
        exact .inl (stored_of_bulkLoad hfeed hgood hopen _ hseal hresult)

end

/-! ## Starting once more -/

theorem Serves.sound (hfeed : ChangeFeed.Orderly Good) {checkpoint : Checkpoint} {torn : Prop}
    (hstart : ∀ (feed : φ) (now : Nat), Good feed →
      (create view config (some checkpoint)).CanSeal floor now 0 →
      ((create view config (some checkpoint)).startUp feed now).result = .ok () →
      Sound signature feedEpoch floor torn
        ((create view config (some checkpoint)).startUp feed now).indexer.batches
        ((create view config (some checkpoint)).startUp feed now).indexer)
    {ix : Indexer} (h : Serves Good floor view config checkpoint ix) :
    Sound signature feedEpoch floor torn ix.batches ix := by
  induction h with
  | startUp hgood hseal hresult => exact hstart _ _ hgood hseal hresult
  | step _ hgood hseal hresult ih => exact ih.step hfeed hgood hseal hresult

/-- What was recovered is what the index begins with, whether or not a new image can be written. -/
theorem store_startUp_of_some {checkpoint : Checkpoint} {feed : φ} {recovered : Recovered}
    (hrecover : (checkpoint.recover (ChangeFeed.tailPosition feed)).1 = .ok (some recovered)) :
    ((create view config (some checkpoint)).startUp feed now).indexer.store
      = (IndexStore.empty view.name view.reducer).replaceAll recovered.docs
          recovered.position := by
  have hpair : checkpoint.recover (ChangeFeed.tailPosition feed)
      = (.ok (some recovered), (checkpoint.recover (ChangeFeed.tailPosition feed)).2) :=
    Prod.ext hrecover rfl
  rw [startUp_of_some hpair]
  split
  next => split <;> rfl
  next => rfl

/-- The files of an indexer tell a history that ends with what it holds. They can be opened, and
the position and the documents come back as the texts of the values give them, unless a text cannot
be read. They are what the indexer holds exactly if the values in the view are read as what they
were. -/
structure Reopens (signature feedEpoch : UInt64) (ix : Indexer) (directory : Directory)
    (past : History) (reopened : Checkpoint) : Prop where
  tells : ∃ layout, Laid directory layout ∧
    Session.Tells signature feedEpoch layout (some past)
  position_eq : past.position = ix.position
  holds : ix.store.Holds past.contents
  opens : Checkpoint.openIn directory signature feedEpoch = .ok reopened
  unreadable : ∀ tail : Position, ¬past.Readable →
    (reopened.recover tail).1 = .error .unreadableValue
  readable : ∀ tail : Position, (∀ p, ix.position.seq p ≤ tail.seq p) → past.Readable →
    ∃ recovered, (reopened.recover tail).1 = .ok (some recovered) ∧
      recovered.Shows past.position past.contents.reread
  restores_iff : ∀ tail : Position, (∀ p, ix.position.seq p ≤ tail.seq p) →
    ((∃ recovered, (reopened.recover tail).1 = .ok (some recovered) ∧
      Session.Restores recovered past) ↔ past.Exact)

variable {ix : Indexer}

theorem Stored.reopens (h : Stored signature feedEpoch floor ix) :
    ∃ stored past reopened, ix.checkpoint = some stored ∧
      Reopens signature feedEpoch ix stored.directory past reopened := by
  obtain ⟨stored, past, hcheckpoint, hkept⟩ := h
  obtain ⟨hposition, hcontents⟩ := hkept.current past rfl
  obtain ⟨layout, hlaid, htells⟩ := hkept.exists_of_crash .idle
  obtain ⟨log, hlog, -, hreopened⟩ := Log.laid_openIn hlaid
  let reopened : Checkpoint := ⟨signature, feedEpoch, log⟩
  have hfound : Laid reopened.directory
      ⟨layout.image, layout.sealed, some (layout.current.getD [])⟩ := hreopened
  have htold : Session.Tells signature feedEpoch
      ⟨layout.image, layout.sealed, some (layout.current.getD [])⟩ (some past) :=
    htells.of_pending rfl fun _ _ => rfl
  have hreaches (tail : Position) (htail : ∀ p, ix.position.seq p ≤ tail.seq p) :
      ∀ p, past.position.seq p ≤ tail.seq p := by
    rw [hposition]
    exact htail
  refine ⟨stored, past, reopened, hcheckpoint, {
    tells := ⟨layout, hlaid, htells⟩
    position_eq := hposition
    holds := ?_
    opens := ?_
    unreadable := fun tail hreadable => ?_
    readable := fun tail htail hreadable => ?_
    restores_iff := fun tail htail =>
      Session.exists_restores_iff hfound htold (hreaches tail htail) }⟩
  · rw [hcontents]
    exact hkept.holds
  · have hstored : Log.openIn stored.directory = .ok log := hlog
    rw [Checkpoint.openIn, hstored]
    rfl
  · rw [Session.recover_of_not_readable hfound htold hreadable]
  · obtain ⟨recovered, hrecover, hshows⟩ :=
      Session.recover_of_readable hfound htold (hreaches tail htail) hreadable
    exact ⟨recovered, congrArg Prod.fst hrecover, hshows⟩

/-- An indexer that starts from the files begins with what the last one held. -/
theorem Reopens.startUp {directory : Directory} {past : History} {reopened : Checkpoint}
    (h : Reopens signature feedEpoch ix directory past reopened) (hexact : past.Exact) {feed : φ}
    (htail : ∀ p, ix.position.seq p ≤ (ChangeFeed.tailPosition feed).seq p) (now : Nat) :
    let next := ((create view config (some reopened)).startUp feed now).indexer
    next.position = ix.position ∧ next.store.current.entries = ix.store.current.entries := by
  obtain ⟨recovered, hrecover, hrestores⟩ := (h.restores_iff _ htail).mpr hexact
  have hstore : ((create view config (some reopened)).startUp feed now).indexer.store = _ :=
    store_startUp_of_some hrecover
  constructor
  · rw [Indexer.position, hstore, ← h.position_eq, ← hrestores.shows.position_eq]
    rfl
  · rw [hstore]
    exact hrestores.entries_eq _ _ h.holds

/-- A view that is stored goes through a crash that tears the frame of a batch. What is left can be
opened, and an indexer may start from it and follow the feed. Then its files tell what it holds, and
the next indexer begins with that if its values come back as they were. The exception is that
nothing but an image was stored before the torn frame, the tear is within the first eight bytes of
the frame, and no image was written since. -/
theorem restarts_after_tear (hfeed : ChangeFeed.Orderly Good) {s : Session}
    (hruns : Session.Runs signature feedEpoch s) {commit : Commit} (hcommits : s.Commits commit)
    {cut : Nat} (hcut : cut < (Log.frame commit.batch).length)
    (hseals : SealsEnd (s.tear commit cut) floor) (view : View) (config : Config) :
    ∃ opened, Checkpoint.openIn (s.tear commit cut) signature feedEpoch = .ok opened ∧
      ∀ second, Serves Good floor view config opened second →
        ((∃ past, s.history = some past ∧ past.Readable ∧ past.commits = []) →
          8 ≤ cut ∨ second.batchesSinceSnapshot < second.batches) →
        ∃ stored past reopened, second.checkpoint = some stored ∧
          Reopens signature feedEpoch second stored.directory past reopened ∧
          (past.Exact → ∀ (feed : φ) (now : Nat),
            (∀ p, second.position.seq p ≤ (ChangeFeed.tailPosition feed).seq p) →
            let third := ((create view config (some reopened)).startUp feed now).indexer
            third.position = second.position ∧
              third.store.current.entries = second.store.current.entries) := by
  have hkept := hruns.kept
  obtain ⟨image, segments, batches, hopen, htells⟩ := hkept.stored
  obtain ⟨clean, hclean, hlater⟩ := hopen.openIn_fray hseals
  let opened : Checkpoint := ⟨signature, feedEpoch, clean⟩
  have hopened : opened.log.Open floor image segments batches := hlater
  refine ⟨opened.fray ((Log.frame commit.batch).take cut), ?_, fun second hserves hmended => ?_⟩
  · have hlog : Log.openIn (s.tear commit cut) = _ := hclean
    rw [Checkpoint.openIn, hlog]
    rfl
  have hsound := hserves.sound hfeed fun feed now hgood hseal hresult =>
    sound_startUp hfeed hgood hopened htells hcommits.framed hcut rfl hseal hresult
  have hstored : Stored signature feedEpoch floor second := by
    rcases hsound with hstored | ⟨⟨hshort, hnothing⟩, -, hsince⟩
    · exact hstored
    · rcases hmended hnothing with hlong | hwritten
      · exact absurd hshort (Nat.not_lt.mpr hlong)
      · exact absurd hsince hwritten.ne
  obtain ⟨stored, past, reopened, hcheckpoint, hreopens⟩ := hstored.reopens
  exact ⟨stored, past, reopened, hcheckpoint, hreopens, fun hexact feed now htail =>
    hreopens.startUp hexact htail now⟩

/-- What is in the view comes back if the values of its entries do. -/
theorem exact_of_entries {store : IndexStore} {past : History}
    (hholds : store.Holds past.contents) (hreadable : past.Readable)
    (hsame : ∀ e ∈ store.current.entries, Json.parse? e.value.compact = some e.value) :
    past.Exact := by
  refine ⟨hreadable, fun docId entry hentry => ?_⟩
  obtain ⟨i, hi⟩ := List.getElem?_of_mem hentry
  exact hsame ⟨⟨entry.1, docId, i⟩, entry.2⟩ ((hholds.mem_entries _).mpr hi)

end

/-! ## A tear behind an image -/

namespace Torn

/-- Lists the ids of all documents. -/
def view : View := { name := "ids", map := fun doc => .emitted [⟨[.text doc.id], .null⟩] }

def feed : MemoryStore := ((MemoryStore.empty 1 0).put "a" .null).1

/-- An image of the empty view was written. -/
def session : Session :=
  let log := Log.ofDirectory (({} : Directory).setContent Log.fileName Log.header) 0
  (Session.reload ⟨⟨0, 0, log⟩, .empty view.name view.reducer, none, 0⟩ [] ∅).snapshot 1

/-- The batch whose frame is torn. -/
def commit : Commit := ⟨.upTo 1 fun _ => 1, [⟨"a", [(⟨[0x50, 0x61]⟩, .null)]⟩]⟩

def opened (cut : Nat) : Checkpoint := ⟨0, 0, .ofDirectory (session.tear commit cut) 0⟩

/-- The next indexer when it has started, and when it has taken in the only event. -/
def started (cut : Nat) : Indexer := ((create view {} (some (opened cut))).startUp feed 2).indexer

def stepped (cut : Nat) : Indexer := ((started cut).step feed 2).indexer

theorem runs_session : Session.Runs 0 0 session := by
  have hstart : Session.Runs 0 0 ⟨⟨0, 0, .ofDirectory
      (({} : Directory).setContent Log.fileName Log.header) 0⟩, .empty "ids" none, none, 0⟩ :=
    .start rfl "ids" none
  have hdistinct : (([] : List DocUpdate).map DocUpdate.docId).Nodup := List.nodup_nil
  have hreload := hstart.reload hdistinct Position.fits_empty
  exact hreload.snapshot ⟨by decide +kernel, by decide +kernel⟩

theorem commits_session : session.Commits commit where
  precedes := Position.Precedes.of_empty commit.position
  fits := Position.fits_upTo (by decide) fun _ => by decide
  logged := by decide +kernel

theorem exists_open : ∃ image segments batches, session.checkpoint.log.Open session.floor image
    segments batches := by
  obtain ⟨image, segments, batches, hopen, -⟩ := runs_session.kept.stored
  exact ⟨image, segments, batches, hopen⟩

theorem openIn_tear (cut : Nat) :
    Checkpoint.openIn (session.tear commit cut) 0 0 = .ok (opened cut) := by
  obtain ⟨image, segments, batches, hopen⟩ := exists_open
  have hcontent := hopen.content?_fray ((Log.frame commit.batch).take cut) Log.fileName
  rw [if_pos rfl] at hcontent
  have hheader := (Log.header_prefix_fileOf batches).trans
    (List.prefix_append _ ((Log.frame commit.batch).take cut))
  have hlog : Log.openIn (session.tear commit cut) = _ := Log.openIn_of_header hcontent hheader
  rw [Checkpoint.openIn, hlog]
  rfl

theorem sealsEnd_tear (cut : Nat) : SealsEnd (session.tear commit cut) 1 where
  sealed item hitem := by
    have hnone : Log.sealedFiles session.directory = [] := by decide +kernel
    rw [Session.tear, Log.sealedFiles_extend, hnone] at hitem
    cases hitem
  image image hload := by
    have hseal : (ImageFile.load session.directory).map (Option.map Image.sealId)
        = .ok (some 1) := by decide +kernel
    obtain ⟨_, segments, batches, hopen⟩ := exists_open
    have hsame : ImageFile.load (session.tear commit cut) = _ := hopen.load_fray _
    have hclean : ImageFile.load session.directory = _ := hopen.laid.load
    rw [hclean, ← hsame, hload] at hseal
    exact (Option.some.inj (Except.ok.inj hseal)).le

theorem fits_feed : feed.Fits :=
  (MemoryStore.wellFormed_put (MemoryStore.wellFormed_empty 1 0) "a" .null).fits (by decide)
    (by decide +kernel)

theorem canSeal {ix : Indexer} {spare number : Nat}
    (h : (ix.checkpoint.map fun checkpoint => checkpoint.log.nextSeal 2) = some number)
    (hclock : 1 < number) (hlt : number + spare < 2 ^ 64) : ix.CanSeal 1 2 spare := by
  rintro checkpoint hcheckpoint
  rw [hcheckpoint] at h
  obtain rfl := Option.some.inj h
  exact ⟨hclock, hlt⟩

theorem serves {cut number : Nat}
    (hstart : ((create view {} (some (opened cut))).startUp feed 2).result = .ok ())
    (hseal : ((started cut).checkpoint.map fun checkpoint => checkpoint.log.nextSeal 2)
      = some number) (hclock : 1 < number) (hlt : number + 1 < 2 ^ 64)
    (hstep : ((started cut).step feed 2).result = .ok 1) :
    Serves MemoryStore.Fits 1 view {} (opened cut) (stepped cut) := by
  have hsecond : (opened cut).log.nextSeal 2 = 2 := rfl
  have hnew : (create view {} (some (opened cut))).CanSeal 1 2 0 :=
    canSeal (congrArg some hsecond) (by decide) (by decide)
  refine (Serves.startUp fits_feed hnew hstart).step fits_feed (canSeal hseal hclock hlt) ?_
  intro e herror
  rw [started] at hstep
  rw [hstep] at herror
  cases herror

/-- If the tear is behind the sum of the frame, the batch of the next indexer comes back. -/
theorem restarts_after_late_tear : ∃ stored reopened, (stepped 9).checkpoint = some stored ∧
    Checkpoint.openIn stored.directory 0 0 = .ok reopened ∧
    let third := ((create view {} (some reopened)).startUp feed 3).indexer
    third.position = (stepped 9).position ∧ third.position.seq 0 = 1 ∧
      third.store.current.entries = (stepped 9).store.current.entries := by
  have hcut : 9 < (Log.frame commit.batch).length := by decide +kernel
  obtain ⟨_, hopened, hsecond⟩ := restarts_after_tear MemoryStore.orderly runs_session
    commits_session hcut (sealsEnd_tear 9) view {}
  obtain rfl := Except.ok.inj ((openIn_tear 9).symm.trans hopened)
  have hseal : ((started 9).checkpoint.map fun checkpoint => checkpoint.log.nextSeal 2)
      = some 3 := by decide +kernel
  have hserves : Serves MemoryStore.Fits 1 view {} (opened 9) (stepped 9) :=
    serves (by decide +kernel) hseal (by decide) (by decide) (by decide +kernel)
  obtain ⟨stored, past, reopened, hstored, hreopens, hthird⟩ :=
    hsecond _ hserves fun _ => .inl (by decide)
  have hreached : ∀ p, (stepped 9).position.seq p ≤ (ChangeFeed.tailPosition feed).seq p := by
    have hsame : (stepped 9).position = ChangeFeed.tailPosition feed := by decide +kernel
    intro p
    rw [hsame]
  have hreadable : past.Readable := by
    by_contra hunreadable
    have hrecover : ((stepped 9).checkpoint.map fun stored =>
        (Checkpoint.openIn stored.directory 0 0).bind fun reopened =>
          (reopened.recover ∅).1.map fun _ => ()) = some (.ok ()) := by decide +kernel
    rw [hstored, Option.map_some, hreopens.opens] at hrecover
    simp [Except.bind, hreopens.unreadable ∅ hunreadable, Except.map] at hrecover
  have hexact := exact_of_entries hreopens.holds hreadable (by decide +kernel)
  obtain ⟨hposition, hentries⟩ := hthird hexact feed 3 hreached
  refine ⟨stored, reopened, hstored, hreopens.opens, hposition, ?_, hentries⟩
  rw [hposition]
  decide +kernel

/-- If it is within the length, the next indexer takes the frame for the end of the log and appends
its batch behind the rest of it, and the batch is lost. -/
theorem not_restarts_after_early_tear : ∃ stored reopened, Session.Runs 0 0 session ∧
    session.Commits commit ∧ 3 < (Log.frame commit.batch).length ∧
    Checkpoint.openIn (session.tear commit 3) 0 0 = .ok (opened 3) ∧
    Serves MemoryStore.Fits 1 view {} (opened 3) (stepped 3) ∧ (stepped 3).batches = 1 ∧
    (stepped 3).checkpoint = some stored ∧
    Checkpoint.openIn stored.directory 0 0 = .ok reopened ∧
    (stepped 3).position = ChangeFeed.tailPosition feed ∧
    let third := ((create view {} (some reopened)).startUp feed 3).indexer
    third.position ≠ (stepped 3).position ∧
      third.store.current.entries ≠ (stepped 3).store.current.entries := by
  have hseal : ((started 3).checkpoint.map fun checkpoint => checkpoint.log.nextSeal 2)
      = some 2 := by decide +kernel
  have hserves : Serves MemoryStore.Fits 1 view {} (opened 3) (stepped 3) :=
    serves (by decide +kernel) hseal (by decide) (by decide) (by decide +kernel)
  have hnumber : (stepped 3).position.seq 0 = 1 := by decide +kernel
  have hcount : (stepped 3).store.current.entries.length = 1 := by decide +kernel
  have hthird : ((stepped 3).checkpoint.map fun stored =>
      (Checkpoint.openIn stored.directory 0 0).map fun reopened =>
        let third := ((create view {} (some reopened)).startUp feed 3).indexer
        (third.position.seq 0, third.store.current.entries.length)) = some (.ok (0, 0)) := by
    decide +kernel
  cases hstored : (stepped 3).checkpoint with
  | none =>
      rw [hstored] at hthird
      cases hthird
  | some stored =>
      rw [hstored, Option.map_some] at hthird
      cases hreopened : Checkpoint.openIn stored.directory 0 0 with
      | error e =>
          rw [hreopened] at hthird
          cases hthird
      | ok reopened =>
          rw [hreopened] at hthird
          obtain ⟨hfirst, hlength⟩ := Prod.mk.inj (Except.ok.inj (Option.some.inj hthird))
          refine ⟨stored, reopened, runs_session, commits_session, by decide +kernel, openIn_tear 3,
            hserves, by decide +kernel, rfl, hreopened, by decide +kernel, ?_, ?_⟩
          · intro hsame
            rw [hsame, hnumber] at hfirst
            cases hfirst
          · intro hsame
            rw [hsame, hcount] at hlength
            cases hlength

end Torn

end Indexer

end ViewIndex
