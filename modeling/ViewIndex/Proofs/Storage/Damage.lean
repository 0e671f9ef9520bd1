import ViewIndex.Proofs.Storage.Alterations
import ViewIndex.Proofs.Storage.Recovery

/-!
# Damaged records

The sum of a record tells every change of a single byte, so a file is read up to a record that was
changed like that. Reading goes on with the next file, though, as if nothing were missing: the
batches behind the record are dropped, but those of later files are applied.
-/

namespace ViewIndex.Storage

/-! ## Files with a changed record -/

namespace Log

/-- The content of a log file after one byte of the record of a batch was changed. -/
def damagedFile (before : List Batch) (batch : Batch) (behind : List Batch) (i : Nat)
    (byte : UInt8) : Bytes :=
  (fileOf (before ++ batch :: behind)).set ((fileOf before).length + 8 + i) byte

variable {before behind : List Batch} {batch : Batch} {i : Nat} {byte : UInt8}

/-- The record stands behind eight bytes of its frame. -/
theorem frame_eq (batch : Batch) : ∃ start, start.length = 8 ∧
    frame batch = start ++ Binary.encodeBatch batch :=
  ⟨_, by simp, rfl⟩

theorem lt_length_frame (hi : i < (Binary.encodeBatch batch).length) :
    8 + i < (frame batch).length := by
  obtain ⟨start, hstart, hframe⟩ := frame_eq batch
  rw [hframe, List.length_append]
  omega

theorem damagedFile_eq (hi : i < (Binary.encodeBatch batch).length) :
    damagedFile before batch behind i byte
      = fileOf before ++ ((frame batch).set (8 + i) byte ++ behind.flatMap frame) := by
  rw [damagedFile, Nat.add_assoc, fileOf_set (lt_length_frame hi)]

/-- A changed record ends the reading of its file. -/
theorem readFile_damagedFile (h : ∀ other ∈ before ++ batch :: behind, Framed other)
    (hi : i < (Binary.encodeBatch batch).length) (hne : (Binary.encodeBatch batch)[i] ≠ byte) :
    readFile (damagedFile before batch behind i byte) = ⟨before, 1⟩ := by
  have hrecord : (frame batch)[8 + i]? = (Binary.encodeBatch batch)[i]? := by
    obtain ⟨start, hstart, hframe⟩ := frame_eq batch
    rw [hframe, ← hstart, List.getElem?_append_right (Nat.le_add_right _ _),
      Nat.add_sub_cancel_left]
  have hframe := lt_length_frame hi
  rw [List.getElem?_eq_getElem hframe, List.getElem?_eq_getElem hi, Option.some_inj] at hrecord
  rw [damagedFile, Nat.add_assoc]
  exact readFile_set h (by omega) hframe (hrecord ▸ hne)

end Log

/-! ## Recovery from changed files -/

/-- What was recovered is the image with the first of the commits since. -/
def Recovered.ShowsPrefix (recovered : Recovered) (history : History) : Prop :=
  ∃ commits, commits <+: history.commits ∧
    recovered.position = { history with commits }.position ∧
    Lists recovered.docs { history with commits }.contents.reread

/-- A stored view can be opened if the content of one of its files is replaced by one that begins as
it should. -/
theorem Log.openIn_setContent {directory : Directory} {layout : Layout}
    (h : Laid directory layout) {name : String} {content changed : Bytes}
    (hname : directory.content? name = some content) (hheader : Log.header <+: changed) :
    ∃ log opened, Log.openIn (directory.setContent name changed) = .ok log ∧
      log.directory.Plain ∧
      Laid opened ⟨layout.image, layout.sealed, some (layout.current.getD [])⟩ ∧
      (opened.content? name).isSome = true ∧
      ∀ other, log.directory.content? other
        = if other = name then some changed else opened.content? other := by
  have hplain := h.plain.setContent name changed
  have hcontent (other : String) := @Directory.content?_setContent directory name changed other
  obtain ⟨image, segments, current⟩ := layout
  cases current with
  | none =>
      -- The damaged file is a sealed one, and the current one is created.
      have hne : Log.fileName ≠ name := by
        rintro rfl
        rw [h.current] at hname
        cases hname
      have heffects : Log.openEffects (directory.setContent name changed)
          = [.write Log.fileName Log.header] := by
        rw [Log.openEffects, hcontent, if_neg hne, h.current]
        rfl
      let next := (directory.setContent name changed).setContent Log.fileName Log.header
      refine ⟨.ofDirectory next 0, directory.setContent Log.fileName Log.header, ?_,
        hplain.setContent _ _, h.create, ?_, fun other => ?_⟩
      · rw [Log.openIn, heffects, (hplain.run _).1]
        rfl
      · rw [Directory.content?_setContent, if_neg hne.symm, hname]
        rfl
      · simp only [Log.ofDirectory, next, Directory.content?_setContent]
        by_cases hother : other = name
        · rw [if_pos hother, if_pos hother, if_neg (hother ▸ hne.symm)]
        · rw [if_neg hother, if_neg hother]
  | some batches =>
      have hcurrent : ∃ current, (directory.setContent name changed).content? Log.fileName
          = some current ∧ Log.header <+: current := by
        rw [hcontent]
        split
        next => exact ⟨changed, rfl, hheader⟩
        next => exact ⟨_, h.current, Log.header_prefix_fileOf batches⟩
      obtain ⟨current, hcurrent, hbegins⟩ := hcurrent
      refine ⟨_, directory, Log.openIn_of_header hcurrent hbegins, hplain, h, ?_, hcontent⟩
      rw [hname]
      rfl

namespace Checkpoint

variable {directory : Directory} {layout : Layout} {image : Image} {history : History}
  {first last : List (String × List Batch)} {name : String} {before behind : List Batch}
  {batch : Batch} {i : Nat} {byte : UInt8}

/-- The commits of a history are those before a record, those in the rest of its file, and those in
later files. -/
theorem Stands.exists_commits (hstands : Stands layout image history)
    (hfiles : layout.files image.sealId = first ++ (name, before ++ batch :: behind) :: last) :
    ∃ kept lost later, history.commits = kept ++ lost ++ later ∧
      kept.map Commit.batch = first.flatMap Prod.snd ++ before ∧
      lost.map Commit.batch = batch :: behind ∧
      later.map Commit.batch = last.flatMap Prod.snd := by
  have hpending := hstands.pending_eq
  rw [← layout.flatMap_files, hfiles, List.flatMap_append, List.flatMap_cons] at hpending
  dsimp only at hpending
  rw [← List.append_assoc, ← List.append_assoc] at hpending
  obtain ⟨start, later, hstart, hfirst, hlater⟩ := List.append_eq_map_iff.mp hpending
  obtain ⟨kept, lost, rfl, hkept, hlost⟩ := List.append_eq_map_iff.mp hfirst.symm
  exact ⟨kept, lost, later, hstart, hkept, hlost, hlater⟩

/-- The image and the batches that are left stand for a history of their own. -/
theorem Stands.sublist (hstands : Stands layout image history) {commits : List Commit}
    (hcommits : commits.Sublist history.commits) :
    Stands ⟨some image, [], some (commits.map Commit.batch)⟩ image { history with commits } where
  position_eq := hstands.position_eq
  docs_eq := hstands.docs_eq
  pending_eq := rfl
  rising := hstands.rising.sublist hcommits
  fits := (hstands.rising.positionAfter_precedes hcommits).fits hstands.fits

theorem Recovers.showsPrefix {checkpoint : Checkpoint} {tail : Position} {commits : List Commit}
    {truncated : Nat} (h : checkpoint.Recovers tail { history with commits } truncated)
    {recovered : Recovered} (hrecover : (checkpoint.recover tail).1 = .ok (some recovered))
    (hcommits : commits <+: history.commits) : recovered.ShowsPrefix history := by
  by_cases hreadable : History.Readable { history with commits }
  · by_cases htail : ∀ p, (History.position { history with commits }).seq p ≤ tail.seq p
    · obtain ⟨docs, hdocs, hlists⟩ := h.readable hreadable htail
      rw [hdocs] at hrecover
      cases hrecover
      exact ⟨commits, hcommits, rfl, hlists⟩
    · simp only [not_forall, Nat.not_le] at htail
      rw [h.ahead hreadable htail] at hrecover
      cases hrecover
  · rw [h.unreadable hreadable] at hrecover
    cases hrecover

/-- Whatever byte of a record is changed: the stored view can be opened, and what is recovered is
the image with the batches before the record and those of later files. If later files have none,
these are the first of the batches; otherwise the position is that of the last batch, as if nothing
were missing. As always, the values come back as their texts give them, nothing comes back if one
cannot be read, and what lies beyond the end of the feed is not used. -/
theorem recover_damaged (hlaid : Laid directory layout) (himage : layout.image = some image)
    (hstands : Stands layout image history)
    (hfiles : layout.files image.sealId = first ++ (name, before ++ batch :: behind) :: last)
    (hi : i < (Binary.encodeBatch batch).length) (hbyte : (Binary.encodeBatch batch)[i] ≠ byte)
    (tail : Position) :
    ∃ kept lost later checkpoint, history.commits = kept ++ lost ++ later ∧
      kept.map Commit.batch = first.flatMap Prod.snd ++ before ∧
      lost.map Commit.batch = batch :: behind ∧
      later.map Commit.batch = last.flatMap Prod.snd ∧
      openIn (directory.setContent name (Log.damagedFile before batch behind i byte))
        image.signature image.feedEpoch = .ok checkpoint ∧
      checkpoint.Recovers tail { history with commits := kept ++ later } 1 ∧
      (later = [] → ∀ recovered, (checkpoint.recover tail).1 = .ok (some recovered) →
        recovered.ShowsPrefix history) ∧
      (later ≠ [] → History.position { history with commits := kept ++ later }
        = history.position) := by
  obtain ⟨kept, lost, later, hcommits, hkept, hlost, hlater⟩ := hstands.exists_commits hfiles
  have hmem : (name, before ++ batch :: behind) ∈ layout.files image.sealId := by
    rw [hfiles]
    simp
  obtain ⟨hname, hframed⟩ := hlaid.content?_files hmem (by simp)
  have hheader : Log.header <+: Log.damagedFile before batch behind i byte := by
    rw [Log.damagedFile_eq hi, Log.fileOf, List.append_assoc]
    exact List.prefix_append _ _
  obtain ⟨log, opened, hopen, hplain, hopened, hheld, hcontent⟩ :=
    Log.openIn_setContent hlaid hname hheader
  let checkpoint : Checkpoint := ⟨image.signature, image.feedEpoch, log⟩
  have hfits : checkpoint.fits image = true := by simp [checkpoint, Checkpoint.fits]
  have hsublist : (kept ++ later).Sublist history.commits := by
    rw [hcommits]
    exact (List.sublist_append_left _ _).append (List.Sublist.refl _)
  have hremaining := hstands.sublist hsublist
  have hpending := hremaining.pending_eq.trans (List.map_append (f := Commit.batch))
  rw [hkept, hlater] at hpending
  have hrecovers : checkpoint.Recovers tail { history with commits := kept ++ later } 1 :=
    recovers_altered hopened himage hfits hplain hheld hcontent hfiles
      (Log.readFile_damagedFile hframed hi hbyte) hremaining hpending tail
  refine ⟨kept, lost, later, checkpoint, hcommits, hkept, hlost, hlater, ?_, hrecovers, ?_, ?_⟩
  · rw [openIn, hopen]
    rfl
  · rintro rfl recovered hrecover
    rw [List.append_nil] at hrecovers
    apply hrecovers.showsPrefix hrecover
    rw [hcommits, List.append_nil]
    exact List.prefix_append _ _
  · intro hsome
    change Commit.positionAfter _ (kept ++ later) = Commit.positionAfter _ history.commits
    rw [hcommits, Commit.positionAfter_append _ _ hsome, Commit.positionAfter_append _ _ hsome]

end Checkpoint

/-! ## Two batches in two files -/

namespace Gap

def first : Commit := ⟨.upTo 1 fun _ => 1, [⟨"a", [(⟨[0x10]⟩, .nat 1)]⟩]⟩

def second : Commit := ⟨.upTo 1 fun _ => 2, [⟨"b", [(⟨[0x10]⟩, .nat 2)]⟩]⟩

/-- The image of an empty view. -/
def image : Image := ⟨0, 0, 1, ∅, []⟩

def history : History := ⟨∅, .empty, [first, second]⟩

/-- The first batch was put aside, but the image that covers it was never written. -/
def layout : Layout := ⟨some image, [(2, [first.batch])], some [second.batch]⟩

def directory : Directory :=
  let drafted := ({} : Directory).setContent ImageFile.temporaryName (ImageFile.encode image)
  let pictured := drafted.move ImageFile.temporaryName ImageFile.fileName
  let opened := pictured.setContent Log.fileName Log.header
  let logged := opened.extend (opened.numberOf Log.fileName) (Log.frame first.batch)
  let aside := (logged.move Log.fileName (Log.sealName 2)).setContent Log.fileName Log.header
  aside.extend (aside.numberOf Log.fileName) (Log.frame second.batch)

theorem laid : Laid directory layout := by
  have hfitting : ImageFile.Fitting image := ⟨Position.fits_empty, by decide, by decide +kernel⟩
  have hfirst : Log.Framed first.batch :=
    ⟨Position.fits_upTo (by decide) fun _ => by decide, by decide +kernel⟩
  have hsecond : Log.Framed second.batch :=
    ⟨Position.fits_upTo (by decide) fun _ => by decide, by decide +kernel⟩
  have hpictured := (laid_empty.draft (ImageFile.encode image)).install hfitting
    (by rw [Directory.content?_setContent, if_pos rfl])
  have haside := (hpictured.create.append rfl hfirst).setAside rfl (by decide : 2 < 2 ^ 64)
    (by simp)
  exact haside.create.append rfl hsecond

theorem stands : Checkpoint.Stands layout image history where
  position_eq := rfl
  docs_eq := ⟨[], rfl, List.nodup_nil, by simp [history, Contents.empty]⟩
  pending_eq := rfl
  rising := by
    refine ⟨Position.Precedes.of_empty _, ⟨fun p hp => ?_, fun p => ?_⟩, trivial⟩
    · rwa [second, Position.mem_upTo, ← Position.mem_upTo 1 fun _ => 1]
    · rw [first, second, Position.seq_eq, Position.seq_eq, Position.getElem?_upTo,
        Position.getElem?_upTo]
      split <;> decide
  fits := Position.fits_upTo (by decide) fun _ => by decide

theorem readable : Commit.Readable history.commits := by
  unfold Commit.Readable
  decide +kernel

end Gap

/-- If a byte of the last batch is changed, the image and the first batch are recovered. -/
theorem Checkpoint.recover_damaged_last :
    let changed := Log.damagedFile [] Gap.second.batch [] 0 0
    ∃ checkpoint recovered,
      Checkpoint.openIn (Gap.directory.setContent Log.fileName changed) 0 0 = .ok checkpoint ∧
        (checkpoint.recover Gap.history.position).1 = .ok (some recovered) ∧
        recovered.ShowsPrefix Gap.history := by
  have hlength : 0 < (Binary.encodeBatch Gap.second.batch).length := by decide +kernel
  have hbyte : (Binary.encodeBatch Gap.second.batch)[0] ≠ 0 := by decide +kernel +revert
  have hfiles : Gap.layout.files Gap.image.sealId
      = [(Log.sealName 2, [Gap.first.batch])]
        ++ (Log.fileName, [] ++ Gap.second.batch :: []) :: [] := rfl
  obtain ⟨kept, lost, later, checkpoint, hcommits, -, -, hlater, hopen, hrecovers, hprefix, -⟩ :=
    recover_damaged Gap.laid rfl Gap.stands hfiles hlength hbyte Gap.history.position
  obtain rfl := List.map_eq_nil_iff.mp hlater
  have hkept : (kept ++ []).Sublist Gap.history.commits := by
    rw [hcommits]
    exact (List.sublist_append_left _ _).append (List.Sublist.refl _)
  have hreadable : History.Readable { Gap.history with commits := kept ++ [] } := by
    refine ⟨fun docId entry hentry => ?_, fun commit hcommit => ?_⟩
    · cases hentry
    · exact Gap.readable commit (hkept.subset hcommit)
  obtain ⟨docs, hrecover, -⟩ := hrecovers.readable hreadable
    (Gap.stands.rising.positionAfter_precedes hkept).seq_le
  rw [congrArg Prod.fst hrecover] at hprefix
  exact ⟨checkpoint, _, hopen, congrArg Prod.fst hrecover, hprefix rfl _ rfl⟩

/-- If a byte of the first batch is changed, the second one is applied, and the position is the one
behind it, although the first batch is missing. -/
theorem Checkpoint.not_showsPrefix_damaged_first :
    let changed := Log.damagedFile [] Gap.first.batch [] 0 0
    ∃ checkpoint recovered,
      Checkpoint.openIn (Gap.directory.setContent (Log.sealName 2) changed) 0 0 = .ok checkpoint ∧
        (checkpoint.recover Gap.history.position).1 = .ok (some recovered) ∧
        ¬recovered.ShowsPrefix Gap.history := by
  intro changed
  let doc : DocUpdate := ⟨"b", [(⟨[0x10]⟩, .nat 2)]⟩
  have hrecover : ((openIn (Gap.directory.setContent (Log.sealName 2) changed) 0 0).bind
      fun checkpoint => (checkpoint.recover Gap.history.position).1)
        = .ok (some ⟨.upTo 1 fun _ => 2, [doc], 1, 1⟩) := by
    decide +kernel
  cases hopen : openIn (Gap.directory.setContent (Log.sealName 2) changed) 0 0 with
  | error e =>
      rw [hopen] at hrecover
      cases hrecover
  | ok checkpoint =>
      rw [hopen] at hrecover
      refine ⟨checkpoint, _, rfl, hrecover, ?_⟩
      rintro ⟨commits, hprefix, hposition, hlists⟩
      simp only [Gap.history, List.prefix_cons_iff, List.prefix_nil] at hprefix
      rcases hprefix with rfl | ⟨_, rfl, rfl | ⟨_, rfl, rfl⟩⟩
      · revert hposition
        decide +kernel
      · revert hposition
        decide +kernel
      · have hmem := (hlists.mem_iff ⟨"a", [(⟨[0x10]⟩, .nat 1)]⟩).mpr (by decide +kernel)
        revert hmem
        decide +kernel

end ViewIndex.Storage
