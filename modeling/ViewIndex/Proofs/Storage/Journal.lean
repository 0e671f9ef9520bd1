import ViewIndex.Proofs.Storage.Tears

/-!
# Logs in use

A log that was created in an empty directory is written to, sealed, cleaned up and opened again, in
any order. What is replayed from it after a seal are the batches appended since, in that order. If
the current file is cut short, those batches are missing whose frames are not whole any more, and no
others.
-/

namespace ViewIndex.Storage

namespace Log

/-! ## Files that were cut -/

/-- The batches whose frames end within the first bytes of a file, if the first frame begins at
`start`. -/
def framesWithin (limit : Nat) : (start : Nat) → List Batch → List Batch
  | _, [] => []
  | start, batch :: rest =>
      let frameEnd := start + (frame batch).length
      if frameEnd ≤ limit then batch :: framesWithin limit frameEnd rest
      else framesWithin limit frameEnd rest

theorem framesWithin_of_lt {limit start : Nat} (h : limit < start) (batches : List Batch) :
    framesWithin limit start batches = [] := by
  induction batches generalizing start with
  | nil => rfl
  | cons batch rest ih =>
      have hend : limit < start + (frame batch).length :=
        Nat.lt_of_lt_of_le h (Nat.le_add_right _ _)
      rw [framesWithin, if_neg (Nat.not_le.mpr hend)]
      exact ih hend

/-- A cut goes through one frame: those before it are whole, and only part of it is left. -/
theorem exists_torn_of_cut {batches : List Batch} {limit start : Nat} (hstart : start ≤ limit)
    (hlimit : limit < start + (batches.flatMap frame).length) :
    ∃ batch cut, batch ∈ batches ∧ cut < (frame batch).length ∧
      framesWithin limit start batches ⊆ batches ∧
      (batches.flatMap frame).take (limit - start)
        = (framesWithin limit start batches).flatMap frame ++ (frame batch).take cut := by
  induction batches generalizing start with
  | nil =>
      rw [List.flatMap_nil, List.length_nil] at hlimit
      omega
  | cons batch rest ih =>
      rw [List.flatMap_cons, List.length_append] at hlimit
      rw [framesWithin, List.flatMap_cons]
      by_cases hend : start + (frame batch).length ≤ limit
      · obtain ⟨torn, cut, hmem, hcut, hsubset, htake⟩ := ih hend (by omega)
        have hlength : limit - start = (frame batch).length
            + (limit - (start + (frame batch).length)) := by omega
        refine ⟨torn, cut, List.mem_cons_of_mem _ hmem, hcut, ?_, ?_⟩
        · rw [if_pos hend]
          exact List.cons_subset_cons _ hsubset
        · rw [if_pos hend, hlength, List.take_length_add_append, htake, List.flatMap_cons,
            List.append_assoc]
      · have hnone := framesWithin_of_lt (Nat.not_le.mp hend) rest
        refine ⟨batch, limit - start, List.mem_cons_self, by omega, ?_, ?_⟩
        · rw [if_neg hend, hnone]
          exact List.nil_subset _
        · rw [if_neg hend, hnone, List.take_append_of_le_length (by omega)]
          rfl

theorem not_isPrefixOf_take {content : Bytes} {limit : Nat} (h : limit < header.length) :
    ¬header.isPrefixOf (content.take limit) = true := by
  intro hprefix
  have hle := (List.isPrefixOf_iff_prefix.mp hprefix).length_le
  rw [List.length_take] at hle
  omega

/-- Of a file that was cut short, the batches with whole frames are read. -/
theorem readFile_cut {batches : List Batch} (h : ∀ batch ∈ batches, Framed batch) {limit : Nat}
    (hlimit : limit < (fileOf batches).length) :
    (readFile ((fileOf batches).take limit)).batches
      = framesWithin limit header.length batches := by
  rcases Nat.lt_or_ge limit header.length with hshort | hheader
  · rw [readFile, if_neg (not_isPrefixOf_take hshort), framesWithin_of_lt hshort]
  · rw [fileOf, List.length_append] at hlimit
    obtain ⟨batch, cut, hmem, hcut, hsubset, htake⟩ := exists_torn_of_cut hheader hlimit
    have hfile : (fileOf batches).take limit
        = fileOf (framesWithin limit header.length batches) ++ (frame batch).take cut := by
      rw [fileOf, List.take_append, List.take_of_length_le hheader, htake, fileOf,
        List.append_assoc]
    rw [hfile, readFile_torn (fun other hother => h other (hsubset hother)) (h batch hmem) hcut]

section

variable {log : Log} {floor : Nat} {image : Option Image} {segments : List (Nat × List Batch)}
  {batches : List Batch}

/-- Whatever the current file holds now, the sealed files are read as they are. -/
theorem Open.replay_changed (h : log.Open floor image segments batches) {changed : Directory}
    {content : Bytes} (hcontent : ∀ name, changed.content? name =
      if name = fileName then some content else log.directory.content? name)
    (handle lastSeal id : Nat) :
    ((Log.mk changed handle lastSeal).replay id).batches
      = (segments.filter fun segment => id < segment.1).flatMap Prod.snd
        ++ (readFile content).batches := by
  have hkeys : changed.files.keys = log.directory.files.keys := by
    apply Directory.keys_eq
    intro name
    rw [hcontent]
    split
    next heq =>
      rw [heq, h.laid.current]
      rfl
    next => rfl
  have hread : readFile ((changed.content? fileName).getD []) = readFile content := by
    rw [hcontent, if_pos rfl, Option.getD_some]
  have hothers : ∀ other ≠ fileName, changed.content? other = log.directory.content? other := by
    intro other hother
    rw [hcontent, if_neg hother]
  obtain ⟨hbatches, -⟩ := h.laid.replay_altered ⟨changed, handle, lastSeal⟩ hkeys hothers
    (show Layout.files _ id = _ ++ _ :: [] from rfl) hread
  rw [hbatches]
  simp [List.flatMap_map]

/-- If the current file is cut short, just the batches are missing whose frames were cut, at once
and when the log is opened again. -/
theorem Open.replay_cut (h : log.Open floor image segments batches) {limit : Nat}
    (hlimit : limit < (fileOf batches).length) (id : Nat) :
    let found := (segments.filter fun segment => id < segment.1).flatMap Prod.snd
      ++ framesWithin limit header.length batches
    let cut := log.directory.setContent fileName ((fileOf batches).take limit)
    (Log.replay { log with directory := cut } id).batches = found ∧
      ∃ reopened, Log.openIn cut = .ok reopened ∧ (reopened.replay id).batches = found := by
  intro found cut
  have hframed : ∀ batch ∈ batches, Framed batch := h.laid.framed_current batches rfl
  have hread := readFile_cut hframed hlimit
  have hcontent := @Directory.content?_setContent log.directory fileName
    ((fileOf batches).take limit)
  refine ⟨?_, ?_⟩
  · rw [h.replay_changed hcontent, hread]
  rcases Nat.lt_or_ge limit header.length with hshort | hheader
  · -- The file does not even begin as it should, so a new one is started.
    have hnone : ¬header.isPrefixOf ((fileOf batches).take limit) = true :=
      not_isPrefixOf_take hshort
    have heffects : openEffects cut = [.write fileName header] := by
      rw [openEffects, hcontent, if_pos rfl, Option.any_some, if_neg hnone]
    refine ⟨.ofDirectory (cut.setContent fileName header) 0, ?_, ?_⟩
    · rw [Log.openIn, heffects, ((h.laid.plain.setContent _ _).run _).1]
      rfl
    · have hnew : ∀ name, (cut.setContent fileName header).content? name =
          if name = fileName then some header else log.directory.content? name := by
        intro name
        rw [Directory.content?_setContent, hcontent]
        split <;> rfl
      have hempty : (readFile header).batches = framesWithin limit header.length batches := by
        rw [framesWithin_of_lt hshort]
        rfl
      rw [Log.ofDirectory, h.replay_changed hnew, hempty]
  · have hprefix : header <+: (fileOf batches).take limit :=
      List.prefix_take_iff.mpr ⟨header_prefix_fileOf batches, hheader⟩
    refine ⟨.ofDirectory cut 0, openIn_of_header ?_ hprefix, ?_⟩
    · rw [hcontent, if_pos rfl]
    · rw [Log.ofDirectory, h.replay_changed hcontent, hread]

end

end Log

/-! ## Journals -/

/-- What stands in a log. -/
inductive Mark where
  | logged (batch : Batch)
  /-- A seal with its number. -/
  | sealed (id : Nat)
deriving DecidableEq

def Mark.batch? : Mark → Option Batch
  | .logged batch => some batch
  | .sealed _ => none

def batchesOf (marks : List Mark) : List Batch := marks.filterMap Mark.batch?

theorem batchesOf_append (marks more : List Mark) :
    batchesOf (marks ++ more) = batchesOf marks ++ batchesOf more :=
  List.filterMap_append

/-- What stands behind a seal. Zero stands for the beginning. -/
inductive Since (marks : List Mark) : (id : Nat) → List Mark → Prop where
  | beginning : Since marks 0 marks
  | behind {before after : List Mark} {id : Nat} (h : marks = before ++ .sealed id :: after) :
      Since marks id after

theorem Since.eq_zero_or_mem {marks after : List Mark} {id : Nat} (h : Since marks id after) :
    id = 0 ∨ .sealed id ∈ marks := by
  cases h with
  | beginning => exact .inl rfl
  | behind h => exact .inr (h ▸ List.mem_append_right _ List.mem_cons_self)

/-- A new mark either is the seal itself or stands behind it with the others. -/
theorem Since.of_append {marks after : List Mark} {mark : Mark} {id : Nat}
    (h : Since (marks ++ [mark]) id after) :
    (mark = .sealed id ∧ after = []) ∨
      ∃ earlier, Since marks id earlier ∧ after = earlier ++ [mark] := by
  cases h with
  | beginning => exact .inr ⟨marks, .beginning, rfl⟩
  | @behind before _ _ h =>
      rcases List.eq_nil_or_concat after with rfl | ⟨earlier, last, rfl⟩
      · obtain ⟨-, hlast⟩ := List.append_inj' h rfl
        exact .inl ⟨List.singleton_inj.mp hlast, rfl⟩
      · rw [List.concat_eq_append, ← List.cons_append, ← List.append_assoc] at h
        obtain ⟨hmarks, hlast⟩ := List.append_inj' h rfl
        rw [List.singleton_inj.mp hlast, List.concat_eq_append]
        exact .inr ⟨earlier, .behind hmarks, rfl⟩

/-- A log with what was written to it. -/
structure Journal where
  log : Log
  marks : List Mark := []
  /-- The sealed files up to this number were removed. -/
  cleaned : Nat := 0

/-- What is done with a log. -/
inductive Use where
  | append (batch : Batch)
  /-- Seals the log at a time. -/
  | sealAt (now : Nat)
  | cleanup (upTo : Nat)
  /-- Gives the log up and opens it again. -/
  | reopen

namespace Journal

def step (journal : Journal) : Use → Except StorageError Journal
  | .append batch => do
      Log.checkRecord batch
      return { journal with
        log := journal.log.append batch
        marks := journal.marks ++ [.logged batch] }
  | .sealAt now => do
      let (result, log) := journal.log.sealAt now
      let id ← result
      return { journal with log, marks := journal.marks ++ [.sealed id] }
  | .cleanup upTo =>
      return { journal with
        log := journal.log.cleanup upTo
        cleaned := max journal.cleaned upTo }
  | .reopen => return { journal with log := ← Log.openIn journal.log.directory }

/-- A batch fits its frame, and the numbers of seals rise. -/
def Permits (journal : Journal) : Use → Prop
  | .append batch => Log.Framed batch
  | .sealAt now => journal.log.nextSeal now < 2 ^ 64 ∧
      ∀ id, .sealed id ∈ journal.marks → id < journal.log.nextSeal now
  | .cleanup _ => True
  | .reopen => True

def Permitted : Journal → List Use → Prop
  | _, [] => True
  | journal, use :: rest => journal.Permits use ∧
      ∀ next, journal.step use = .ok next → next.Permitted rest

/-- The log is open, has no number of its own that no seal got, and what is pending after a seal is
what was written since. -/
structure Sound (journal : Journal) (floor : Nat) (segments : List (Nat × List Batch))
    (batches : List Batch) : Prop where
  opened : journal.log.Open floor none segments batches
  given : journal.log.given floor = 0 ∨ .sealed (journal.log.given floor) ∈ journal.marks
  pending : ∀ id after, Since journal.marks id after → journal.cleaned ≤ id →
    Layout.pending ⟨none, segments, some batches⟩ id = batchesOf after

variable {journal : Journal} {floor : Nat} {segments : List (Nat × List Batch)}
  {batches : List Batch}

theorem step_append (journal : Journal) {batch : Batch} (h : Log.Framed batch) :
    journal.step (.append batch) = .ok { journal with
      log := journal.log.append batch
      marks := journal.marks ++ [.logged batch] } := by
  have hrecord : Log.checkRecord batch = .ok () := if_pos h.size
  rw [step, hrecord]
  rfl

theorem Sound.append (h : journal.Sound floor segments batches) {batch : Batch}
    (hframed : Log.Framed batch) : ∃ next, journal.step (.append batch) = .ok next ∧
      next.Sound floor segments (batches ++ [batch]) := by
  refine ⟨_, journal.step_append hframed, h.opened.append hframed, ?_, ?_⟩
  · exact h.given.imp_right (List.mem_append_left _)
  · intro id after hsince hcleaned
    rcases hsince.of_append with ⟨hmark, -⟩ | ⟨earlier, hearlier, rfl⟩
    · cases hmark
    · have hpending := h.pending id earlier hearlier hcleaned
      rw [batchesOf_append, ← hpending]
      simp [Layout.pending, batchesOf, Mark.batch?]

theorem Sound.sealAt (h : journal.Sound floor segments batches) {now : Nat}
    (hpermits : journal.Permits (.sealAt now)) :
    ∃ next segments, journal.step (.sealAt now) = .ok next ∧ next.Sound floor segments [] := by
  obtain ⟨hnow, hrises⟩ := hpermits
  let id := journal.log.nextSeal now
  have hgiven : journal.log.given floor < id := by
    rcases h.given with hzero | hmem
    · rw [hzero]
      exact Nat.lt_of_lt_of_le (Nat.succ_pos _) (Nat.le_max_right _ _)
    · exact hrises _ hmem
  have hclock : floor < id := Nat.lt_of_le_of_lt (Nat.le_max_left _ _) hgiven
  obtain ⟨later, hseal, hlater, hopen⟩ := h.opened.sealAt hclock hnow
  refine ⟨_, _, by rw [step, hseal]; rfl, hopen, ?_, ?_⟩
  · right
    rw [hlater]
    exact List.mem_append_right _ List.mem_cons_self
  · intro since after hsince hcleaned
    rcases hsince.of_append with ⟨hmark, rfl⟩ | ⟨earlier, hearlier, rfl⟩
    · -- Behind the new seal there is nothing yet.
      obtain rfl : id = since := Mark.sealed.inj hmark
      refine Layout.pending_eq_nil (fun segment hsegment => ?_) rfl
      have hle := hopen.segment_le segment hsegment
      rwa [hlater] at hle
    · have hlt : since < id := by
        rcases hearlier.eq_zero_or_mem with rfl | hmem
        · exact Nat.zero_lt_of_lt hgiven
        · exact hrises _ hmem
      have hpending := h.pending since earlier hearlier hcleaned
      rw [batchesOf_append, ← hpending, Layout.pending_setAside hlt rfl]
      exact (List.append_nil _).symm

theorem Sound.cleanup (h : journal.Sound floor segments batches) (upTo : Nat) :
    ∃ next segments, journal.step (.cleanup upTo) = .ok next ∧
      next.Sound floor segments batches := by
  obtain ⟨kept, hopen, hpending⟩ := h.opened.cleanup upTo
  refine ⟨_, kept, rfl, hopen, h.given, fun id after hsince hcleaned => ?_⟩
  obtain ⟨hbefore, hupTo⟩ := Nat.max_le.mp hcleaned
  rw [hpending id hupTo]
  exact h.pending id after hsince hbefore

theorem Sound.reopen (h : journal.Sound floor segments batches) :
    ∃ next floor, journal.step .reopen = .ok next ∧ next.Sound floor segments batches := by
  obtain ⟨log, hlog, hopen⟩ := Log.open_openIn h.opened.laid (journal.log.given floor)
    h.opened.segment_le (fun image himage => by cases himage)
  have hgiven : log.given (journal.log.given floor) = journal.log.given floor := by
    rw [Log.given, Log.lastSeal_openIn hlog]
    exact Nat.max_zero _
  refine ⟨{ journal with log }, _, by rw [step, hlog]; rfl, hopen, ?_, h.pending⟩
  rw [hgiven]
  exact h.given

theorem Sound.run (h : journal.Sound floor segments batches) {uses : List Use}
    (hpermitted : journal.Permitted uses) :
    ∃ last floor segments batches, uses.foldlM step journal = .ok last ∧
      last.Sound floor segments batches := by
  induction uses generalizing journal floor segments batches with
  | nil => exact ⟨journal, floor, segments, batches, rfl, h⟩
  | cons use rest ih =>
      obtain ⟨hpermits, hrest⟩ := hpermitted
      have hstep : ∃ next floor segments batches, journal.step use = .ok next ∧
          next.Sound floor segments batches := by
        cases use with
        | append batch =>
            obtain ⟨next, hnext, hsound⟩ := h.append hpermits
            exact ⟨next, _, _, _, hnext, hsound⟩
        | sealAt now =>
            obtain ⟨next, _, hnext, hsound⟩ := h.sealAt hpermits
            exact ⟨next, _, _, _, hnext, hsound⟩
        | cleanup upTo =>
            obtain ⟨next, _, hnext, hsound⟩ := h.cleanup upTo
            exact ⟨next, _, _, _, hnext, hsound⟩
        | reopen =>
            obtain ⟨next, _, hnext, hsound⟩ := h.reopen
            exact ⟨next, _, _, _, hnext, hsound⟩
      obtain ⟨next, _, _, _, hnext, hsound⟩ := hstep
      obtain ⟨last, floor, segments, batches, hlast, hdone⟩ := ih hsound (hrest next hnext)
      refine ⟨last, floor, segments, batches, ?_, hdone⟩
      rw [List.foldlM_cons, hnext]
      exact hlast

/-- However a log is used that was created in an empty directory: nothing fails, and unless the
sealed files behind it were removed, what is replayed after a seal are the batches appended since,
in order. If the current file is cut short, those of its batches are missing whose frames are not
whole any more, and no others, whether the log is opened again or not. -/
theorem replay_since : ∃ fresh, Log.openIn {} = .ok fresh ∧ ∀ uses,
    Permitted { log := fresh } uses → ∃ journal, uses.foldlM step { log := fresh } = .ok journal ∧
      ∀ id after, Since journal.marks id after → journal.cleaned ≤ id →
        (journal.log.replay id).batches = batchesOf after ∧
        (journal.log.replay id).truncated = 0 ∧
        ∃ older current, batchesOf after = older ++ current ∧
          journal.log.directory.content? Log.fileName = some (Log.fileOf current) ∧
          ∀ limit < (Log.fileOf current).length,
            let found := older ++ Log.framesWithin limit Log.header.length current
            let cut := journal.log.directory.setContent Log.fileName
              ((Log.fileOf current).take limit)
            (Log.replay { journal.log with directory := cut } id).batches = found ∧
              ∃ reopened, Log.openIn cut = .ok reopened ∧
                (reopened.replay id).batches = found := by
  obtain ⟨fresh, hfresh, hopen⟩ := Log.open_openIn laid_empty 0
    (fun segment hsegment => by cases hsegment) (fun image himage => by cases himage)
  refine ⟨fresh, hfresh, fun uses hpermitted => ?_⟩
  have hstart : Sound { log := fresh } 0 [] [] := by
    refine ⟨hopen, .inl ?_, fun id after hsince _ => ?_⟩
    · rw [Log.given, Log.lastSeal_openIn hfresh]
      rfl
    · cases hsince with
      | beginning => rfl
      | behind h => simp at h
  obtain ⟨journal, floor, segments, batches, hrun, hsound⟩ := hstart.run hpermitted
  refine ⟨journal, hrun, fun id after hsince hcleaned => ?_⟩
  have hpending := hsound.pending id after hsince hcleaned
  obtain ⟨hreplay, htruncated⟩ := hsound.opened.laid.replay journal.log.handle
    journal.log.lastSeal id
  refine ⟨hreplay.trans hpending, htruncated, _, batches, hpending.symm,
    hsound.opened.laid.current, fun limit hlimit => ?_⟩
  exact hsound.opened.replay_cut hlimit id

/-- A batch without documents. -/
def plainBatch (n : Nat) : Batch := ⟨.upTo 1 fun _ => n, []⟩

/-- One batch before a seal and one behind it; then the log is opened again. -/
def twoBatches : List Use := [.append (plainBatch 1), .sealAt 5, .append (plainBatch 2), .reopen]

/-- The second batch is found again, but not if its frame lost its last bytes. -/
theorem replay_since_twoBatches : ∃ fresh journal, Log.openIn {} = .ok fresh ∧
    twoBatches.foldlM step { log := fresh } = .ok journal ∧
      (journal.log.replay 0).batches = [plainBatch 1, plainBatch 2] ∧
      (journal.log.replay 5).batches = [plainBatch 2] ∧
      ∃ reopened, Log.openIn (journal.log.directory.setContent Log.fileName
          ((Log.fileOf [plainBatch 2]).take 40)) = .ok reopened ∧
        (reopened.replay 5).batches = [] := by
  obtain ⟨fresh, hfresh, hreplay⟩ := replay_since
  have hfirst : Log.Framed (plainBatch 1) :=
    ⟨Position.fits_upTo (by decide) fun _ => by decide, by decide +kernel⟩
  have hsecond : Log.Framed (plainBatch 2) :=
    ⟨Position.fits_upTo (by decide) fun _ => by decide, by decide +kernel⟩
  have hpermitted : Permitted { log := fresh } twoBatches := by
    refine ⟨hfirst, fun logged hlogged => ⟨?_, fun aside _ => ⟨hsecond, fun later _ =>
      ⟨trivial, fun _ _ => trivial⟩⟩⟩⟩
    rw [step_append _ hfirst] at hlogged
    obtain rfl := Except.ok.inj hlogged
    have hnumber : (fresh.append (plainBatch 1)).nextSeal 5 = 5 := by
      change max 5 (fresh.lastSeal + 1) = 5
      rw [Log.lastSeal_openIn hfresh]
      rfl
    refine ⟨by rw [hnumber]; decide, fun id hid => ?_⟩
    cases List.mem_singleton.mp hid
  obtain ⟨journal, hrun, hsince⟩ := hreplay twoBatches hpermitted
  have hopen : fresh = .ofDirectory (({} : Directory).setContent Log.fileName Log.header) 0 :=
    Except.ok.inj (hfresh.symm.trans rfl)
  let shown (journal : Journal) :=
    (journal.marks, journal.cleaned, journal.log.directory.content? Log.fileName)
  have hmapped : (twoBatches.foldlM step { log := fresh }).map shown = .ok (shown journal) :=
    congrArg (Except.map shown) hrun
  have hshown : shown journal = ([.logged (plainBatch 1), .sealed 5, .logged (plainBatch 2)], 0,
      some (Log.fileOf [plainBatch 2])) := by
    rw [hopen] at hmapped
    exact Except.ok.inj (hmapped.symm.trans (by decide +kernel))
  simp only [shown, Prod.mk.injEq] at hshown
  obtain ⟨hmarks, hcleaned, hcontent⟩ := hshown
  obtain ⟨hall, -⟩ := hsince 0 _ .beginning hcleaned.le
  have hbehind : Since journal.marks 5 [.logged (plainBatch 2)] :=
    @Since.behind _ [.logged (plainBatch 1)] _ _ hmarks
  obtain ⟨hlater, -, older, current, hsplit, hcurrent, hcut⟩ :=
    hsince 5 _ hbehind (hcleaned ▸ Nat.zero_le 5)
  rw [hmarks] at hall
  have hfile : Log.fileOf current = Log.fileOf [plainBatch 2] :=
    Option.some.inj (hcurrent.symm.trans hcontent)
  cases older with
  | nil =>
      obtain rfl : [plainBatch 2] = current := hsplit
      obtain ⟨-, reopened, hreopen, hfound⟩ := hcut 40 (by decide +kernel)
      have hnone : Log.framesWithin 40 Log.header.length [plainBatch 2] = [] := by decide +kernel
      rw [hnone] at hfound
      exact ⟨fresh, journal, hfresh, hrun, hall, hlater, reopened, hreopen, hfound⟩
  | cons first rest =>
      obtain ⟨-, hrest⟩ := List.cons.inj hsplit
      rw [(List.append_eq_nil_iff.mp hrest.symm).2] at hfile
      exact absurd hfile (by decide +kernel)

end Journal

end ViewIndex.Storage
