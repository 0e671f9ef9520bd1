import ViewIndex.Proofs.Storage.Recovery

/-!
# Sessions

A view that is stored goes through commits, snapshots and reloads. It may crash between any two
effects on its files, and then it goes on from what was recovered. Whatever it has been through, its
files tell the history of what was committed or pictured last.
-/

namespace ViewIndex.Storage

open Directory (after)

theorem Checkpoint.lt_of_checkBatch {position : Position} {updates : List DocUpdate}
    (h : checkBatch position updates = .ok ()) :
    (Binary.encodeBatch (batchOf position updates)).length < 2 ^ 32 := by
  unfold checkBatch Log.checkRecord at h
  dsimp only at h
  split at h
  next hlt => exact hlt
  next => cases h

/-- A stored view with its index. -/
structure Session where
  checkpoint : Checkpoint
  store : IndexStore
  /-- What the files stand for. There is no history while there is no image. -/
  history : Option History
  /-- The numbers of the seals from before the log was opened end here. -/
  floor : Nat

/-- No image and no sealed file of a directory has a number above a floor. -/
structure SealsEnd (directory : Directory) (floor : Nat) : Prop where
  sealed : ∀ item ∈ Log.sealedFiles directory, item.1 ≤ floor
  image : ∀ image, ImageFile.load directory = .ok (some image) → image.sealId ≤ floor

namespace Session

def directory (s : Session) : Directory := s.checkpoint.directory

/-- The number that the next seal has at a time. -/
def nextSeal (s : Session) (now : Nat) : Nat := s.checkpoint.log.nextSeal now

/-- A seal can be given a number at this time: the clock is past the numbers from before the log was
opened, and there are numbers left. -/
structure CanSeal (s : Session) (now : Nat) : Prop where
  clock : s.floor < s.nextSeal now
  lt : s.nextSeal now < 2 ^ 64

/-- The log after it was sealed, and the image that is written then. -/
def sealedLog (s : Session) (now : Nat) : Log := (s.checkpoint.log.sealAt now).2

def image (s : Session) (now : Nat) : Image :=
  s.checkpoint.imageOf s.store.current (s.nextSeal now)

/-- The history that starts with an image of the current snapshot. -/
def pictured (s : Session) : History := ⟨s.store.position, s.store.current.contents, []⟩

/-- A batch that can be committed: the position does not fall back, its numbers fit their widths,
and the log takes the record. -/
structure Commits (s : Session) (commit : Commit) : Prop where
  precedes : s.store.position.Precedes commit.position
  fits : commit.position.Fits
  logged : Checkpoint.checkBatch commit.position commit.updates = .ok ()

theorem Commits.framed {s : Session} {commit : Commit} (h : s.Commits commit) :
    Log.Framed commit.batch :=
  ⟨h.fits, Checkpoint.lt_of_checkBatch h.logged⟩

/-- Logs a batch, then applies it. -/
def commit (s : Session) (commit : Commit) : Session :=
  { s with
    checkpoint := s.checkpoint.recordBatch commit.position commit.updates
    store := (s.store.applyBatch commit.updates (some commit.position)).1
    history := s.history.map (·.add commit) }

/-- Writes an image of the current snapshot. If that fails, the last image stays. -/
def snapshot (s : Session) (now : Nat) : Session :=
  let (result, checkpoint) := s.checkpoint.writeSnapshot s.store.current now
  { s with
    checkpoint
    history :=
      match result with
      | .ok () => some s.pictured
      | .error _ => s.history }

/-- Discards what is stored and replaces everything. A bulk load goes on with a snapshot. -/
def reload (s : Session) (docs : List DocUpdate) (position : Position) : Session :=
  { s with
    checkpoint := s.checkpoint.reset.2
    store := s.store.replaceAll docs position
    history := none }

/-- Goes on from what is recovered. -/
def reopen (checkpoint : Checkpoint) (tail : Position) (index : IndexStore)
    (history : Option History) (floor : Nat) : Session :=
  let (result, checkpoint) := checkpoint.recover tail
  { checkpoint, history, floor
    store :=
      match result with
      | .ok (some recovered) => index.replaceAll recovered.docs recovered.position
      | _ => index }

/-- The directories that a crash can leave behind, each with the history its files stand for. -/
inductive Crash (s : Session) : Directory → Option History → Prop where
  | idle : Crash s s.directory s.history
  /-- A batch was logged, but it was not applied yet. -/
  | logged {commit : Commit} (hcommits : s.Commits commit) :
      Crash s (s.checkpoint.recordBatch commit.position commit.updates).directory
        (s.history.map (·.add commit))
  | sealing {now : Nat} (hseal : s.CanSeal now) {effects : List FileEffect}
      (h : effects <+: Log.sealEffects s.directory (s.nextSeal now)) :
      Crash s (s.directory.run effects).2 s.history
  /-- The log was sealed, and the image is not in its place yet. -/
  | saving {now : Nat} (hseal : s.CanSeal now) {effects : List FileEffect}
      (h : effects <+: ImageFile.saveEffects (s.image now))
      (hne : effects ≠ ImageFile.saveEffects (s.image now)) :
      Crash s ((s.sealedLog now).directory.run effects).2 s.history
  /-- The image is in its place, and some of the sealed files that it covers are removed. -/
  | cleaning {now : Nat} (hseal : s.CanSeal now) {saved : Directory}
      (hsaved : ImageFile.save (s.sealedLog now).directory (s.image now) = (.ok (), saved))
      {effects : List FileEffect} (h : effects ⊆ Log.cleanupEffects saved (s.nextSeal now)) :
      Crash s (saved.run effects).2 (some s.pictured)
  /-- The image is removed, but the log is not discarded yet. -/
  | discarding {bare : Directory}
      (hbare : s.directory.run (Checkpoint.removeImageEffects s.directory) = (.ok (), bare)) :
      Crash s bare none
  /-- The log is being discarded, by a reload or because there was nothing to recover. -/
  | clearing {directory : Directory} (h : Crash s directory none) {effects : List FileEffect}
      (heffects : effects ⊆ Log.resetEffects directory) : Crash s (directory.run effects).2 none
  /-- The log was opened after a crash, and there was another one. -/
  | opening {directory : Directory} {history : Option History} (h : Crash s directory history)
      {log : Log} (hopen : Log.openIn directory = .ok log) : Crash s log.directory history

/-- The sessions of a view that start in an empty directory. A session goes on after a crash if the
history was such that everything came back. -/
inductive Runs (signature feedEpoch : UInt64) : Session → Prop where
  | start {checkpoint : Checkpoint}
      (hopen : Checkpoint.openIn {} signature feedEpoch = .ok checkpoint)
      (name : String) (reducer : Option Reducer) :
      Runs signature feedEpoch ⟨checkpoint, .empty name reducer, none, 0⟩
  | commit {s : Session} (h : Runs signature feedEpoch s) {commit : Commit}
      (hcommits : s.Commits commit) : Runs signature feedEpoch (s.commit commit)
  | snapshot {s : Session} (h : Runs signature feedEpoch s) {now : Nat} (hseal : s.CanSeal now) :
      Runs signature feedEpoch (s.snapshot now)
  | reload {s : Session} (h : Runs signature feedEpoch s) {docs : List DocUpdate}
      (hdistinct : (docs.map DocUpdate.docId).Nodup) {position : Position} (hfits : position.Fits) :
      Runs signature feedEpoch (s.reload docs position)
  | reopen {s : Session} (h : Runs signature feedEpoch s) {directory : Directory}
      {history : Option History} (hcrash : s.Crash directory history)
      (hexact : ∀ past, history = some past → past.Exact) {floor : Nat}
      (hseals : SealsEnd directory floor) {checkpoint : Checkpoint}
      (hopen : Checkpoint.openIn directory signature feedEpoch = .ok checkpoint) {tail : Position}
      (htail : ∀ past, history = some past → ∀ p, past.position.seq p ≤ tail.seq p)
      (name : String) (reducer : Option Reducer) :
      Runs signature feedEpoch (reopen checkpoint tail (.empty name reducer) history floor)

/-! ## What the files tell -/

/-- The files tell a history of the view: there is no image without a history, and otherwise they
stand for it. -/
def Tells (signature feedEpoch : UInt64) (layout : Layout) : Option History → Prop
  | none => layout.image = none
  | some past => ∃ image, layout.image = some image ∧ image.signature = signature ∧
      image.feedEpoch = feedEpoch ∧ Checkpoint.Stands layout image past

section

variable {signature feedEpoch : UInt64} {layout later : Layout} {history : Option History}

/-- All that counts is the image and the batches that it lacks. -/
theorem Tells.of_pending (h : Tells signature feedEpoch layout history)
    (himage : later.image = layout.image)
    (hpending : ∀ image, layout.image = some image →
      later.pending image.sealId = layout.pending image.sealId) :
    Tells signature feedEpoch later history := by
  cases history with
  | none => exact himage.trans h
  | some past =>
      obtain ⟨image, hsome, hsignature, hepoch, hstands⟩ := h
      refine ⟨image, himage.trans hsome, hsignature, hepoch, ?_⟩
      exact { hstands with pending_eq := (hpending image hsome).trans hstands.pending_eq }

theorem Tells.add {image : Option Image} {segments : List (Nat × List Batch)}
    {batches : List Batch} (h : Tells signature feedEpoch ⟨image, segments, some batches⟩ history)
    {commit : Commit}
    (hprecedes : ∀ past, history = some past → past.position.Precedes commit.position)
    (hfits : commit.position.Fits) :
    Tells signature feedEpoch ⟨image, segments, some (batches ++ [commit.batch])⟩
      (history.map (·.add commit)) := by
  cases history with
  | none => exact h
  | some past =>
      obtain ⟨saved, hsome, hsignature, hepoch, hstands⟩ := h
      refine ⟨saved, hsome, hsignature, hepoch, hstands.position_eq, hstands.docs_eq, ?_, ?_, ?_⟩
      · have hpending := hstands.pending_eq
        simp only [Layout.pending, Option.getD_some] at hpending ⊢
        rw [← List.append_assoc, hpending]
        simp [History.add]
      · exact Commit.rising_append hstands.rising (hprecedes past rfl)
      · rwa [History.position_add]

/-- A view whose files tell its history, which ends with what the index holds. -/
structure Kept (signature feedEpoch : UInt64) (s : Session) : Prop where
  signature_eq : s.checkpoint.signature = signature
  feedEpoch_eq : s.checkpoint.feedEpoch = feedEpoch
  stored : ∃ image segments batches, s.checkpoint.log.Open s.floor image segments batches ∧
    Tells signature feedEpoch ⟨image, segments, some batches⟩ s.history
  holds : s.store.Holds s.store.current.contents
  fits : s.store.position.Fits
  current : ∀ past, s.history = some past →
    past.position = s.store.position ∧ past.contents = s.store.current.contents

variable {s : Session}

/-- What an index holds is what its snapshot shows, so it may be given in any form. -/
theorem kept_of_holds (hsignature : s.checkpoint.signature = signature)
    (hepoch : s.checkpoint.feedEpoch = feedEpoch)
    (hstored : ∃ image segments batches, s.checkpoint.log.Open s.floor image segments batches ∧
      Tells signature feedEpoch ⟨image, segments, some batches⟩ s.history)
    {contents : Contents} (hholds : s.store.Holds contents) (hfits : s.store.position.Fits)
    (hcurrent : ∀ past, s.history = some past →
      past.position = s.store.position ∧ past.contents = contents) :
    Kept signature feedEpoch s := by
  obtain rfl := Checkpoint.contents_eq hholds
  exact ⟨hsignature, hepoch, hstored, hholds, hfits, hcurrent⟩

/-- Nothing is stored and nothing indexed. -/
theorem kept_empty {log : Log} {floor : Nat} {segments : List (Nat × List Batch)}
    {batches : List Batch} (hopen : log.Open floor none segments batches) (name : String)
    (reducer : Option Reducer) :
    Kept signature feedEpoch ⟨⟨signature, feedEpoch, log⟩, .empty name reducer, none, floor⟩ :=
  kept_of_holds rfl rfl ⟨none, segments, batches, hopen, rfl⟩
    (IndexStore.holds_empty name reducer) Position.fits_empty fun _ hpast => by cases hpast

theorem kept_start (name : String) (reducer : Option Reducer) {checkpoint : Checkpoint}
    (hopen : Checkpoint.openIn {} signature feedEpoch = .ok checkpoint) :
    Kept signature feedEpoch ⟨checkpoint, .empty name reducer, none, 0⟩ := by
  obtain ⟨log, hlog, hstored⟩ := Log.open_openIn laid_empty 0
    (fun _ hsegment => by cases hsegment) (fun _ himage => by cases himage)
  rw [Checkpoint.openIn, hlog] at hopen
  obtain rfl := Except.ok.inj hopen
  exact kept_empty hstored name reducer

theorem Kept.commit (h : Kept signature feedEpoch s) {commit : Commit}
    (hcommits : s.Commits commit) : Kept signature feedEpoch (s.commit commit) := by
  obtain ⟨image, segments, batches, hopen, htells⟩ := h.stored
  have hlogged := hopen.append hcommits.framed
  have htold := htells.add (fun past hpast => (h.current past hpast).1 ▸ hcommits.precedes)
    hcommits.fits
  refine kept_of_holds h.signature_eq h.feedEpoch_eq ⟨image, segments, _, hlogged, htold⟩
    (h.holds.applyBatch commit.updates (some commit.position)) hcommits.fits ?_
  intro past hpast
  obtain ⟨before, hbefore, rfl⟩ := Option.map_eq_some_iff.mp hpast
  rw [History.position_add, History.contents_add, (h.current before hbefore).2]
  exact ⟨rfl, rfl⟩

/-- An image of the snapshot tells the history that starts with it. -/
theorem Kept.tells_pictured (h : Kept signature feedEpoch s) {now : Nat}
    (himage : layout.image = some (s.image now)) (hpending : layout.pending (s.nextSeal now) = []) :
    Tells signature feedEpoch layout (some s.pictured) :=
  ⟨s.image now, himage, h.signature_eq, h.feedEpoch_eq, rfl,
    Checkpoint.exists_storedDocs_eq h.holds, hpending, trivial, h.fits⟩

/-- The sealed log tells the history from before, and an image of the snapshot is in front of all
that was put aside. -/
theorem Kept.exists_of_sealed (h : Kept signature feedEpoch s) {now : Nat} (hseal : s.CanSeal now) :
    ∃ image segments, s.checkpoint.log.sealAt now = (.ok (s.nextSeal now), s.sealedLog now) ∧
      (s.sealedLog now).Open s.floor image segments [] ∧
      (s.sealedLog now).given s.floor = s.nextSeal now ∧
      Tells signature feedEpoch ⟨image, segments, some []⟩ s.history ∧
      Tells signature feedEpoch ⟨some (s.image now), segments, some []⟩ (some s.pictured) := by
  obtain ⟨image, segments, batches, hopen, htells⟩ := h.stored
  obtain ⟨sealed, hsealAt, hgiven, hsealed⟩ := hopen.sealAt hseal.clock hseal.lt
  have hlog : s.sealedLog now = sealed := congrArg Prod.snd hsealAt
  rw [hlog]
  refine ⟨image, _, hsealAt, hsealed, hgiven, htells.of_pending rfl fun saved hsaved => ?_,
    h.tells_pictured rfl ?_⟩
  · exact Layout.pending_setAside (Nat.lt_of_le_of_lt (hopen.image_le saved hsaved)
      (Log.given_lt_nextSeal hseal.clock)) rfl
  · exact Layout.pending_eq_nil (fun segment hsegment =>
      (hsealed.segment_le segment hsegment).trans_eq hgiven) rfl

section

variable {checkpoint : Checkpoint} {store : IndexStore} {floor : Nat} {image : Option Image}
  {segments : List (Nat × List Batch)} {batches : List Batch} {now : Nat}

/-- Whatever was stored before, a new image of an index tells the history that starts with it. -/
theorem exists_writeSnapshot (hopen : checkpoint.log.Open floor image segments batches)
    (hholds : store.Holds store.current.contents) (hposition : store.position.Fits)
    (hclock : floor < checkpoint.log.nextSeal now) (hlt : checkpoint.log.nextSeal now < 2 ^ 64)
    (hfits : ImageFile.fits (checkpoint.imageOf store.current (checkpoint.log.nextSeal now))
      = true) :
    ∃ later, checkpoint.writeSnapshot store.current now = (.ok (), later) ∧
      Kept checkpoint.signature checkpoint.feedEpoch
        ⟨later, store, some ⟨store.position, store.current.contents, []⟩, floor⟩ := by
  obtain ⟨sealed, hsealAt, hgiven, hsealed⟩ := hopen.sealAt hclock hlt
  obtain ⟨saved, hsave, hsaved⟩ := hsealed.save ⟨hposition, hlt, hfits⟩ hgiven.ge
  obtain ⟨kept, hkept, hpending⟩ := hsaved.cleanup (checkpoint.log.nextSeal now)
  let later := Log.cleanup { sealed with directory := saved } (checkpoint.log.nextSeal now)
  refine ⟨{ checkpoint with log := later },
    by simp only [Checkpoint.writeSnapshot, hsealAt, hsave, later], ?_⟩
  refine kept_of_holds rfl rfl ⟨_, kept, _, hkept, _, rfl, rfl, rfl, rfl,
    Checkpoint.exists_storedDocs_eq hholds, ?_, trivial, hposition⟩ hholds hposition ?_
  · refine (hpending _ (Nat.le_refl _)).trans ?_
    exact Layout.pending_eq_nil (fun segment hsegment =>
      (hsealed.segment_le segment hsegment).trans_eq hgiven) rfl
  · rintro _ ⟨⟩
    exact ⟨rfl, rfl⟩

/-- An image that is too large leaves the last one in its place, and the log stays sealed. -/
theorem writeSnapshot_of_not_fits (hopen : checkpoint.log.Open floor image segments batches)
    (hclock : floor < checkpoint.log.nextSeal now) (hlt : checkpoint.log.nextSeal now < 2 ^ 64)
    {snapshot : Snapshot} (hfits : ImageFile.fits
      (checkpoint.imageOf snapshot (checkpoint.log.nextSeal now)) = false) :
    ∃ later, checkpoint.writeSnapshot snapshot now
        = (.error .imageTooLarge, { checkpoint with log := later }) ∧
      later.Open floor image (segments ++ [(checkpoint.log.nextSeal now, batches)]) [] := by
  obtain ⟨sealed, hsealAt, -, hsealed⟩ := hopen.sealAt hclock hlt
  obtain ⟨saved, hsave, hsaved⟩ := hsealed.save_of_not_fits hfits
  exact ⟨{ sealed with directory := saved },
    by simp only [Checkpoint.writeSnapshot, hsealAt, hsave], hsaved⟩

theorem kept_of_writeSnapshot (hopen : checkpoint.log.Open floor image segments batches)
    (hholds : store.Holds store.current.contents) (hposition : store.position.Fits)
    (hclock : floor < checkpoint.log.nextSeal now) (hlt : checkpoint.log.nextSeal now < 2 ^ 64)
    {later : Checkpoint} (hwrite : checkpoint.writeSnapshot store.current now = (.ok (), later)) :
    Kept checkpoint.signature checkpoint.feedEpoch
      ⟨later, store, some ⟨store.position, store.current.contents, []⟩, floor⟩ := by
  by_cases hfits : ImageFile.fits
      (checkpoint.imageOf store.current (checkpoint.log.nextSeal now)) = true
  · obtain ⟨written, hwritten, hkept⟩ :=
      exists_writeSnapshot hopen hholds hposition hclock hlt hfits
    rw [hwrite] at hwritten
    obtain rfl := congrArg Prod.snd hwritten
    exact hkept
  · obtain ⟨_, herror, -⟩ :=
      writeSnapshot_of_not_fits hopen hclock hlt (Bool.eq_false_of_not_eq_true hfits)
    rw [hwrite] at herror
    cases herror

/-- Discarding everything leaves an empty log, which goes on numbering its seals. -/
theorem exists_reset (hopen : checkpoint.log.Open floor image segments batches) :
    ∃ kept cleared, checkpoint.reset = (.ok (), { checkpoint with log := cleared }) ∧
      cleared.Open floor none kept [] ∧ cleared.lastSeal = checkpoint.log.lastSeal := by
  obtain ⟨bare, hrun, hbare⟩ := hopen.removeImage
  obtain ⟨kept, cleared, hreset, hcleared, hseal⟩ := hbare.reset
  refine ⟨kept, cleared, ?_, hcleared, hseal⟩
  rw [Checkpoint.reset, Checkpoint.directory, hrun]
  dsimp only
  rw [Checkpoint.resetLog, Checkpoint.withDirectory, hreset]

end

theorem Kept.snapshot (h : Kept signature feedEpoch s) {now : Nat} (hseal : s.CanSeal now) :
    Kept signature feedEpoch (s.snapshot now) := by
  obtain ⟨image, segments, batches, hopen, htells⟩ := h.stored
  by_cases hfits : ImageFile.fits (s.image now) = true
  · obtain ⟨later, hwrite, hkept⟩ :=
      exists_writeSnapshot hopen h.holds h.fits hseal.clock hseal.lt hfits
    rw [h.signature_eq, h.feedEpoch_eq] at hkept
    rw [Session.snapshot, hwrite]
    exact hkept
  · obtain ⟨later, hwrite, hlater⟩ := writeSnapshot_of_not_fits hopen hseal.clock hseal.lt
      (Bool.eq_false_of_not_eq_true hfits)
    rw [Session.snapshot, hwrite]
    refine { h with stored := ⟨_, _, _, hlater, htells.of_pending rfl fun saved hsaved => ?_⟩ }
    exact Layout.pending_setAside (Nat.lt_of_le_of_lt (hopen.image_le saved hsaved)
      (Log.given_lt_nextSeal hseal.clock)) rfl

theorem Kept.reload (h : Kept signature feedEpoch s) {docs : List DocUpdate}
    (hdistinct : (docs.map DocUpdate.docId).Nodup) {position : Position} (hfits : position.Fits) :
    Kept signature feedEpoch (s.reload docs position) := by
  obtain ⟨image, segments, batches, hopen, -⟩ := h.stored
  obtain ⟨kept, cleared, hreset, hcleared, -⟩ := exists_reset hopen
  rw [Session.reload, congrArg Prod.snd hreset]
  exact kept_of_holds h.signature_eq h.feedEpoch_eq ⟨none, kept, [], hcleared, rfl⟩
    (IndexStore.holds_replaceAll s.store hdistinct position) hfits fun _ hpast => by cases hpast

section

variable {checkpoint : Checkpoint} {past : History} {tail : Position}

theorem recover_of_readable (hlaid : Laid checkpoint.directory layout)
    (htells : Tells checkpoint.signature checkpoint.feedEpoch layout (some past))
    (htail : ∀ p, past.position.seq p ≤ tail.seq p) (hreadable : past.Readable) :
    ∃ recovered, checkpoint.recover tail = (.ok (some recovered), checkpoint) ∧
      recovered.Shows past.position past.contents.reread := by
  obtain ⟨image, himage, hsignature, hepoch, hstands⟩ := htells
  obtain ⟨recovered, hrestore, hshows⟩ :=
    Checkpoint.restore_of_readable hlaid hstands hreadable
  refine ⟨recovered, ?_, hshows⟩
  have hfits : checkpoint.fits image = true := by simp [Checkpoint.fits, hsignature, hepoch]
  apply Checkpoint.recover_of_image (by rw [hlaid.load, himage]) hfits hrestore
  rintro _ ⟨⟩
  rw [hshows.position_eq]
  exact htail

theorem recover_of_not_readable (hlaid : Laid checkpoint.directory layout)
    (htells : Tells checkpoint.signature checkpoint.feedEpoch layout (some past))
    (hreadable : ¬past.Readable) :
    checkpoint.recover tail = (.error .unreadableValue, checkpoint) := by
  obtain ⟨image, himage, hsignature, hepoch, hstands⟩ := htells
  have hfits : checkpoint.fits image = true := by simp [Checkpoint.fits, hsignature, hepoch]
  exact Checkpoint.recover_of_image (by rw [hlaid.load, himage]) hfits
    (Checkpoint.restore_of_not_readable hlaid hstands hreadable) fun _ hok => by cases hok

end

section

variable {log : Log} {floor : Nat} {image : Option Image} {segments : List (Nat × List Batch)}
  {batches : List Batch} (name : String) (reducer : Option Reducer)

/-- If there is nothing to recover, everything starts anew. -/
theorem kept_reopen_of_none (hopen : log.Open floor none segments batches) (tail : Position) :
    Kept signature feedEpoch
      (reopen ⟨signature, feedEpoch, log⟩ tail (.empty name reducer) none floor) := by
  have hfound : Laid (Checkpoint.mk signature feedEpoch log).directory
      ⟨none, segments, some batches⟩ := hopen.laid
  have hrecover := Checkpoint.recover_of_no_image hfound rfl tail
  obtain ⟨kept, cleared, hreset, hcleared, -⟩ := hopen.reset
  rw [Session.reopen, hrecover, Checkpoint.resetLog, hreset]
  exact kept_empty hcleared name reducer

/-- What was recovered as it was can be gone on from. -/
theorem kept_reopen_of_exact (hopen : log.Open floor image segments batches) {past : History}
    (htells : Tells signature feedEpoch ⟨image, segments, some batches⟩ (some past))
    (hexact : past.Exact) {tail : Position} (htail : ∀ p, past.position.seq p ≤ tail.seq p) :
    Kept signature feedEpoch
      (reopen ⟨signature, feedEpoch, log⟩ tail (.empty name reducer) (some past) floor) := by
  have hfound : Laid (Checkpoint.mk signature feedEpoch log).directory
      ⟨image, segments, some batches⟩ := hopen.laid
  obtain ⟨hreadable, hsame⟩ := (History.exact_iff past).mp hexact
  obtain ⟨recovered, hrecover, hshows⟩ := recover_of_readable hfound htells htail hreadable
  rw [hsame] at hshows
  have hholds := IndexStore.holds_replaceAll (.empty name reducer) hshows.lists.nodup
    recovered.position
  rw [hshows.lists.setAll_eq] at hholds
  have hfits : recovered.position.Fits := by
    obtain ⟨_, -, -, -, hstands⟩ := htells
    rw [hshows.position_eq]
    exact hstands.fits
  rw [Session.reopen, hrecover]
  refine kept_of_holds rfl rfl ⟨_, _, _, hopen, htells⟩ hholds hfits ?_
  rintro _ ⟨⟩
  exact ⟨hshows.position_eq.symm, rfl⟩

theorem kept_reopen {directory : Directory} (hlaid : Laid directory layout)
    (htells : Tells signature feedEpoch layout history)
    (hexact : ∀ past, history = some past → past.Exact) (hseals : SealsEnd directory floor)
    {checkpoint : Checkpoint}
    (hopen : Checkpoint.openIn directory signature feedEpoch = .ok checkpoint) {tail : Position}
    (htail : ∀ past, history = some past → ∀ p, past.position.seq p ≤ tail.seq p) :
    Kept signature feedEpoch (reopen checkpoint tail (.empty name reducer) history floor) := by
  obtain ⟨log, hlog, hstored⟩ := Log.open_openIn hlaid floor
    (fun segment hsegment => hseals.sealed (segment.1, Log.sealName segment.1)
      ((hlaid.mem_sealedFiles_iff _).mpr ⟨segment, hsegment, rfl⟩))
    (fun image himage => hseals.image image (by rw [hlaid.load, himage]))
  rw [Checkpoint.openIn, hlog] at hopen
  obtain rfl := Except.ok.inj hopen
  cases history with
  | none =>
      have hnone : layout.image = none := htells
      rw [hnone] at hstored
      exact kept_reopen_of_none name reducer hstored tail
  | some past =>
      exact kept_reopen_of_exact name reducer hstored (htells.of_pending rfl fun _ _ => rfl)
        (hexact past rfl) (htail past rfl)

end

end

end Session

end ViewIndex.Storage
