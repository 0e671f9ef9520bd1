import ViewIndex.Proofs.Storage.Operations
import ViewIndex.Proofs.Storage.Rereading

/-!
# Recovery

The files of a view stand for a history: an image, and the batches that were committed after it was
taken. Recovery replays the history on the texts of its values. It fails exactly if one of them
cannot be read.
-/

namespace ViewIndex.Storage

/-- A batch as it was committed. -/
structure Commit where
  position : Position
  updates : List DocUpdate

namespace Commit

def batch (commit : Commit) : Batch := Checkpoint.batchOf commit.position commit.updates

/-- No position has something that a later one lacks. -/
def Rising : Position → List Commit → Prop
  | _, [] => True
  | position, commit :: rest => position.Precedes commit.position ∧ Rising commit.position rest

/-- The contents after commits. -/
def contentsAfter (contents : Contents) (commits : List Commit) : Contents :=
  commits.foldl (fun contents commit => contents.setAll commit.updates) contents

/-- The position of the last commit. -/
def positionAfter (position : Position) (commits : List Commit) : Position :=
  commits.foldl (fun _ commit => commit.position) position

/-- Every value can be read back. -/
def Readable (commits : List Commit) : Prop :=
  ∀ commit ∈ commits, ∀ update ∈ commit.updates, update.readable = true

/-- What all stored entries have in common goes for the contents behind them. -/
theorem forall_mem_contentsAfter {P : EncodedKey × Json → Prop} {contents : Contents}
    (hcontents : ∀ docId, ∀ entry ∈ contents docId, P entry) {commits : List Commit}
    (hcommits : ∀ commit ∈ commits, ∀ update ∈ commit.updates, ∀ entry ∈ update.entries, P entry) :
    ∀ docId, ∀ entry ∈ contentsAfter contents commits docId, P entry := by
  induction commits generalizing contents with
  | nil => exact hcontents
  | cons commit rest ih =>
      obtain ⟨hcommit, hrest⟩ := List.forall_mem_cons.mp hcommits
      exact ih (Contents.forall_mem_setAll hcontents hcommit) hrest

theorem rising_append {position : Position} {commits : List Commit} {commit : Commit}
    (h : Rising position commits)
    (hcommit : (positionAfter position commits).Precedes commit.position) :
    Rising position (commits ++ [commit]) := by
  induction commits generalizing position with
  | nil => exact ⟨hcommit, trivial⟩
  | cons first rest ih => exact ⟨h.1, ih h.2 hcommit⟩

theorem Rising.precedes_positionAfter {position : Position} {commits : List Commit}
    (h : Rising position commits) : position.Precedes (positionAfter position commits) := by
  induction commits generalizing position with
  | nil => exact .refl position
  | cons commit rest ih => exact h.1.trans (ih h.2)

/-- Leaving commits out, the positions still rise. -/
theorem Rising.sublist {position : Position} {commits kept : List Commit}
    (h : Rising position commits) (hkept : kept.Sublist commits) : Rising position kept := by
  have hskip {before after : Position} {rest : List Commit} (hprecedes : before.Precedes after)
      (hrest : Rising after rest) : Rising before rest := by
    cases rest with
    | nil => trivial
    | cons commit rest => exact ⟨hprecedes.trans hrest.1, hrest.2⟩
  induction hkept generalizing position with
  | slnil => trivial
  | cons commit _ ih => exact ih (hskip h.1 h.2)
  | cons_cons commit _ ih => exact ⟨h.1, ih h.2⟩

theorem Rising.positionAfter_precedes {position : Position} {commits kept : List Commit}
    (h : Rising position commits) (hkept : kept.Sublist commits) :
    (positionAfter position kept).Precedes (positionAfter position commits) := by
  induction hkept generalizing position with
  | slnil => exact .refl position
  | @cons kept rest commit _ ih =>
      cases kept with
      | nil => exact h.precedes_positionAfter
      | cons _ _ => exact ih h.2
  | cons_cons commit _ ih => exact ih h.2

theorem positionAfter_append (position : Position) (first : List Commit) {rest : List Commit}
    (hrest : rest ≠ []) :
    positionAfter position (first ++ rest) = positionAfter position rest := by
  rw [positionAfter, List.foldl_append]
  cases rest with
  | nil => exact absurd rfl hrest
  | cons commit rest => rfl

end Commit

/-- What the files of a view stand for: the position and the contents that an image was taken of,
and the commits since. -/
structure History where
  start : Position
  base : Contents
  commits : List Commit

namespace History

def position (history : History) : Position := Commit.positionAfter history.start history.commits

def contents (history : History) : Contents := Commit.contentsAfter history.base history.commits

def add (history : History) (commit : Commit) : History :=
  { history with commits := history.commits ++ [commit] }

/-- Every value that the image or a logged batch has can be read back, whether it is still in the
view or not. -/
structure Readable (history : History) : Prop where
  base : ∀ docId, ∀ entry ∈ history.base docId, entry.2.readable = true
  commits : Commit.Readable history.commits

/-- Every value can be read back, and those that are in the view come back as they are. -/
structure Exact (history : History) : Prop where
  readable : history.Readable
  same : ∀ docId, ∀ entry ∈ history.contents docId, Json.parse? entry.2.compact = some entry.2

@[simp]
theorem position_add (history : History) (commit : Commit) :
    (history.add commit).position = commit.position := by
  simp [position, add, Commit.positionAfter]

@[simp]
theorem contents_add (history : History) (commit : Commit) :
    (history.add commit).contents = history.contents.setAll commit.updates := by
  simp [contents, add, Commit.contentsAfter]

/-- What is in the view was in the image or in a batch. -/
theorem Readable.contents {history : History} (h : history.Readable) :
    ∀ docId, ∀ entry ∈ history.contents docId, entry.2.readable = true := by
  apply Commit.forall_mem_contentsAfter h.base
  intro commit hcommit update hupdate entry hentry
  exact List.all_eq_true.mp (h.commits commit hcommit update hupdate) entry hentry

theorem exact_iff (history : History) :
    history.Exact ↔ history.Readable ∧ history.contents.reread = history.contents := by
  constructor
  · rintro ⟨hreadable, hsame⟩
    exact ⟨hreadable, (Contents.reread_eq_self_iff hreadable.contents).mpr hsame⟩
  · rintro ⟨hreadable, hsame⟩
    exact ⟨hreadable, (Contents.reread_eq_self_iff hreadable.contents).mp hsame⟩

end History

/-- What was recovered shows a position and the documents of some contents, and no record was cut
off. -/
structure Recovered.Shows (recovered : Recovered) (position : Position) (contents : Contents) :
    Prop where
  position_eq : recovered.position = position
  lists : Lists recovered.docs contents
  truncated_eq : recovered.truncated = 0

namespace Checkpoint

theorem applyBatches_of_readable {docs : DocMap} {contents : Contents} {position : Position}
    {commits : List Commit} (h : Represents docs contents.reread)
    (hrising : Commit.Rising position commits) (hreadable : Commit.Readable commits) :
    ∃ later, applyBatches (docs, position) (commits.map Commit.batch)
        = .ok (later, Commit.positionAfter position commits) ∧
      Represents later (Commit.contentsAfter contents commits).reread := by
  induction commits generalizing docs contents position with
  | nil => exact ⟨docs, rfl, h⟩
  | cons commit rest ih =>
      obtain ⟨next, hnext, hrepresents⟩ :=
        foldlM_addBatchDoc h (hreadable commit List.mem_cons_self)
      obtain ⟨later, hlater, hrest⟩ := ih hrepresents hrising.2 fun other hother =>
        hreadable other (List.mem_cons_of_mem _ hother)
      refine ⟨later, ?_, hrest⟩
      rw [List.map_cons, Commit.batch, batchOf, applyBatches, hnext]
      -- Merging the positions gives the later one, since none falls back.
      change applyBatches (next, position.merge commit.position) _ = _
      rw [Position.merge_eq_of_precedes hrising.1]
      exact hlater

theorem applyBatches_of_not_readable {docs : DocMap} {contents : Contents} (position : Position)
    {commits : List Commit} (h : Represents docs contents.reread)
    (hreadable : ¬Commit.Readable commits) :
    applyBatches (docs, position) (commits.map Commit.batch) = .error .unreadableValue := by
  induction commits generalizing docs contents position with
  | nil => exact absurd (fun _ hcommit => by cases hcommit) hreadable
  | cons commit rest ih =>
      rw [List.map_cons, Commit.batch, batchOf, applyBatches]
      -- The batches before the first one with such a value do not matter.
      by_cases hcommit : ∃ update ∈ commit.updates, update.readable = false
      · rw [foldlM_addBatchDoc_of_not_readable docs hcommit]
        rfl
      · simp only [not_exists, not_and, Bool.not_eq_false] at hcommit
        obtain ⟨next, hnext, hrepresents⟩ := foldlM_addBatchDoc h hcommit
        rw [hnext]
        apply ih _ hrepresents
        intro hrest
        exact hreadable (List.forall_mem_cons.mpr ⟨hcommit, hrest⟩)

/-- An image, and the batches that it lacks, stand for a history. -/
structure Stands (layout : Layout) (image : Image) (history : History) : Prop where
  position_eq : image.position = history.start
  docs_eq : ∃ docs, image.docs = docs.map StoredDoc.ofUpdate ∧ Lists docs history.base
  pending_eq : layout.pending image.sealId = history.commits.map Commit.batch
  rising : Commit.Rising history.start history.commits
  fits : history.position.Fits

section

variable {checkpoint : Checkpoint} {layout : Layout} {image : Image} {history : History}

/-- The documents of the image are taken in if their values can be read. -/
theorem Stands.exists_base (h : Stands layout image history) :
    (∀ docId, ∀ entry ∈ history.base docId, entry.2.readable = true) ∧
        (∃ docs, image.docs.foldlM addImageDoc ∅ = .ok docs ∧
          Represents docs history.base.reread) ∨
      ¬(∀ docId, ∀ entry ∈ history.base docId, entry.2.readable = true) ∧
        image.docs.foldlM addImageDoc ∅ = .error .unreadableValue := by
  obtain ⟨docs, hdocs, hlists⟩ := h.docs_eq
  have hbase : (∀ docId, ∀ entry ∈ history.base docId, entry.2.readable = true) ↔
      ∀ doc ∈ docs, doc.readable = true := by
    simp only [DocUpdate.readable, List.all_eq_true]
    constructor
    · intro hreadable doc hdoc
      rw [((hlists.mem_iff doc).mp hdoc).2]
      exact hreadable doc.docId
    · intro hreadable docId entry hentry
      exact hreadable ⟨docId, history.base docId⟩
        ((hlists.mem_iff _).mpr ⟨List.ne_nil_of_mem hentry, rfl⟩) entry hentry
  rw [hbase, hdocs, foldlM_addImageDoc ∅ fun doc hdoc => ((hlists.mem_iff doc).mp hdoc).1]
  by_cases hreadable : ∀ doc ∈ docs, doc.readable = true
  · obtain ⟨taken, htaken, hrepresents⟩ := foldlM_addBatchDoc represents_empty hreadable
    rw [hlists.setAll_eq] at hrepresents
    exact .inl ⟨hreadable, taken, htaken, hrepresents⟩
  · refine .inr ⟨hreadable, foldlM_addBatchDoc_of_not_readable ∅ ?_⟩
    simpa using hreadable

/-- If all values can be read, the position and the contents come back as the texts give them. -/
theorem restore_of_replay (hbatches :
      (checkpoint.log.replay image.sealId).batches = layout.pending image.sealId)
    (hstands : Stands layout image history) (hreadable : history.Readable) :
    ∃ docs, checkpoint.restore image = .ok ⟨history.position, docs, history.commits.length,
        (checkpoint.log.replay image.sealId).truncated⟩ ∧
      Lists docs history.contents.reread := by
  rw [hstands.pending_eq] at hbatches
  obtain ⟨-, docs, hdocs, hrepresents⟩ | ⟨hnot, -⟩ := hstands.exists_base
  · obtain ⟨later, hlater, hcontents⟩ :=
      applyBatches_of_readable hrepresents hstands.rising hreadable.commits
    refine ⟨later.toList.map Prod.snd, ?_, hcontents.lists⟩
    simp only [restore, hdocs, hbatches, hstands.position_eq, List.length_map, bind,
      Except.bind, hlater]
    rfl
  · exact absurd hreadable.base hnot

/-- If some value cannot be read, nothing comes back. -/
theorem restore_of_replay_of_not_readable (hbatches :
      (checkpoint.log.replay image.sealId).batches = layout.pending image.sealId)
    (hstands : Stands layout image history) (hreadable : ¬history.Readable) :
    checkpoint.restore image = .error .unreadableValue := by
  rw [hstands.pending_eq] at hbatches
  obtain ⟨hbase, docs, hdocs, hrepresents⟩ | ⟨-, hdocs⟩ := hstands.exists_base
  · have hcommits : ¬Commit.Readable history.commits := fun hcommits => hreadable ⟨hbase, hcommits⟩
    simp only [restore, hdocs, hbatches, bind, Except.bind,
      applyBatches_of_not_readable image.position hrepresents hcommits]
  · simp only [restore, hdocs, bind, Except.bind]

theorem restore_of_readable (h : Laid checkpoint.directory layout)
    (hstands : Stands layout image history) (hreadable : history.Readable) :
    ∃ recovered, checkpoint.restore image = .ok recovered ∧
      recovered.Shows history.position history.contents.reread := by
  obtain ⟨hbatches, htruncated⟩ : (checkpoint.log.replay image.sealId).batches = _ ∧
      (checkpoint.log.replay image.sealId).truncated = 0 := h.replay _ _ image.sealId
  obtain ⟨docs, hrestore, hlists⟩ := restore_of_replay hbatches hstands hreadable
  exact ⟨_, hrestore, rfl, hlists, htruncated⟩

theorem restore_of_not_readable (h : Laid checkpoint.directory layout)
    (hstands : Stands layout image history) (hreadable : ¬history.Readable) :
    checkpoint.restore image = .error .unreadableValue :=
  restore_of_replay_of_not_readable (h.replay _ _ image.sealId).1 hstands hreadable

theorem isAhead_eq_false {position tail : Position} (h : ∀ p, position.seq p ≤ tail.seq p) :
    isAhead position tail = false := by
  simp only [isAhead, List.any_eq_false, decide_eq_true_eq, Nat.not_lt]
  intro item hitem
  have hle := h item.1
  rw [(Position.seq_of_mem_toList hitem).2] at hle
  exact hle

theorem isAhead_eq_true {position tail : Position} {p : Nat} (h : tail.seq p < position.seq p) :
    isAhead position tail = true := by
  rw [Position.seq_eq position] at h
  cases hseq : position[p]? with
  | none => simp [hseq] at h
  | some seq =>
      rw [hseq, Option.getD_some] at h
      have hitem := Std.ExtTreeMap.mem_toList_iff_getElem?_eq_some.mpr hseq
      exact List.any_eq_true.mpr ⟨(p, seq), hitem, decide_eq_true h⟩

/-- What is recovered does not lie beyond the end of the feed. -/
theorem seq_le_of_recover {tail : Position} {recovered : Recovered}
    (h : (checkpoint.recover tail).1 = .ok (some recovered)) (p : Nat) :
    recovered.position.seq p ≤ tail.seq p := by
  have husable : (ImageFile.load checkpoint.directory).bind (checkpoint.usable · tail)
      = .ok (some recovered) := by
    unfold recover at h
    split at h
    next found hfound => exact hfound.trans h
    next => cases hreset : checkpoint.resetLog.1 <;> simp [hreset, Except.map] at h
    next => cases h
  cases hload : ImageFile.load checkpoint.directory with
  | error e => simp [hload, Except.bind] at husable
  | ok stored =>
      simp only [hload, Except.bind, usable] at husable
      split at husable
      next => simp at husable
      next image _ =>
        cases hrestore : checkpoint.restore image with
        | error e => simp [hrestore, bind, Except.bind] at husable
        | ok restored =>
            by_contra hlt
            simp only [hrestore, bind, Except.bind] at husable
            split at husable
            next => cases husable
            next hahead =>
              obtain rfl : restored = recovered := by simpa [pure, Except.pure] using husable
              exact hahead (isAhead_eq_true (Nat.lt_of_not_le hlt))

theorem resetLog_fst (h : checkpoint.directory.Plain) : checkpoint.resetLog.1 = .ok () := by
  have hrun : checkpoint.log.directory.run (Log.resetEffects checkpoint.log.directory) = _ :=
    (h.run _).1
  rw [resetLog, Log.reset, hrun]

theorem recover_of_load_none (hplain : checkpoint.directory.Plain)
    (hload : ImageFile.load checkpoint.directory = .ok none) (tail : Position) :
    checkpoint.recover tail = (.ok none, checkpoint.resetLog.2) := by
  rw [recover, hload]
  change (checkpoint.resetLog.1.map fun _ => none, checkpoint.resetLog.2) = _
  rw [resetLog_fst hplain]
  rfl

/-- Without an image there is nothing to recover, and the log is discarded. -/
theorem recover_of_no_image (h : Laid checkpoint.directory layout) (hnone : layout.image = none)
    (tail : Position) : checkpoint.recover tail = (.ok none, checkpoint.resetLog.2) :=
  recover_of_load_none h.plain (by rw [h.load, hnone]) tail

section

variable (hload : ImageFile.load checkpoint.directory = .ok (some image))
  (hfits : checkpoint.fits image = true)
include hload hfits

theorem recover_of_image {tail : Position} {result : Except StorageError Recovered}
    (hresult : checkpoint.restore image = result)
    (htail : ∀ recovered, result = .ok recovered → ∀ p, recovered.position.seq p ≤ tail.seq p) :
    checkpoint.recover tail = (result.map some, checkpoint) := by
  have hfilter : (some image).filter checkpoint.fits = some image := by simp [hfits]
  rw [recover, hload]
  simp only [Except.bind, usable, hfilter, hresult]
  cases result with
  | error e => rfl
  | ok recovered =>
      have hahead := isAhead_eq_false (htail recovered rfl)
      simp only [bind, Except.bind, hahead]
      rfl

/-- What lies beyond the end of the feed is not used, and the log is discarded. -/
theorem recover_of_ahead (hplain : checkpoint.directory.Plain) {recovered : Recovered}
    (hrestore : checkpoint.restore image = .ok recovered) {tail : Position} {p : Nat}
    (hahead : tail.seq p < recovered.position.seq p) :
    checkpoint.recover tail = (.ok none, checkpoint.resetLog.2) := by
  have hfilter : (some image).filter checkpoint.fits = some image := by simp [hfits]
  rw [recover, hload]
  simp only [Except.bind, usable, hfilter, hrestore, bind, isAhead_eq_true hahead]
  change (checkpoint.resetLog.1.map fun _ => none, checkpoint.resetLog.2) = _
  rw [resetLog_fst hplain]
  rfl

end

/-- What recovery makes of a history and of a number of records that were dropped: it comes back as
the texts of its values give it, unless one of them cannot be read or it lies beyond the end of the
feed. -/
structure Recovers (checkpoint : Checkpoint) (tail : Position) (history : History)
    (truncated : Nat) : Prop where
  readable : history.Readable → (∀ p, history.position.seq p ≤ tail.seq p) →
    ∃ docs, checkpoint.recover tail = (.ok (some
        ⟨history.position, docs, history.commits.length, truncated⟩), checkpoint) ∧
      Lists docs history.contents.reread
  ahead : history.Readable → (∃ p, tail.seq p < history.position.seq p) →
    checkpoint.recover tail = (.ok none, checkpoint.resetLog.2)
  unreadable : ¬history.Readable → checkpoint.recover tail = (.error .unreadableValue, checkpoint)

theorem recovers_of_replay (hplain : checkpoint.directory.Plain)
    (hload : ImageFile.load checkpoint.directory = .ok (some image))
    (hfits : checkpoint.fits image = true)
    (hbatches : (checkpoint.log.replay image.sealId).batches = layout.pending image.sealId)
    (hstands : Stands layout image history) (tail : Position) :
    checkpoint.Recovers tail history (checkpoint.log.replay image.sealId).truncated where
  readable hreadable htail := by
    obtain ⟨docs, hrestore, hlists⟩ := restore_of_replay hbatches hstands hreadable
    exact ⟨docs, recover_of_image hload hfits hrestore (by rintro _ ⟨⟩; exact htail), hlists⟩
  ahead hreadable hahead := by
    obtain ⟨docs, hrestore, -⟩ := restore_of_replay hbatches hstands hreadable
    obtain ⟨p, hp⟩ := hahead
    exact recover_of_ahead hload hfits hplain hrestore hp
  unreadable hreadable :=
    recover_of_image hload hfits
      (restore_of_replay_of_not_readable hbatches hstands hreadable) fun _ hok => by cases hok

/-- If one of the log files has another content now, recovery goes by what can be read of it and by
everything in the other files. -/
theorem recovers_altered {opened : Directory} (hopened : Laid opened layout)
    (himage : layout.image = some image) (hfits : checkpoint.fits image = true)
    (hplain : checkpoint.directory.Plain) {name : String} {changed : Bytes}
    (hheld : (opened.content? name).isSome = true) (hcontent : ∀ other,
      checkpoint.directory.content? other = if other = name then some changed
        else opened.content? other)
    {first last : List (String × List Batch)} {batches : List Batch}
    (hfiles : layout.files image.sealId = first ++ (name, batches) :: last)
    {found : Log.Contents} (hfound : Log.readFile changed = found) {other : Layout}
    (hstands : Stands other image history) (hpending : other.pending image.sealId
      = first.flatMap Prod.snd ++ found.batches ++ last.flatMap Prod.snd) (tail : Position) :
    checkpoint.Recovers tail history found.truncated := by
  have hkeys : checkpoint.directory.files.keys = opened.files.keys := by
    apply Directory.keys_eq
    intro other
    rw [hcontent]
    split
    next heq => rw [heq, hheld]; rfl
    next => rfl
  have hothers : ∀ other ≠ name, checkpoint.directory.content? other = opened.content? other :=
    fun other hother => (hcontent other).trans (if_neg hother)
  have hread : Log.readFile ((checkpoint.directory.content? name).getD []) = found := by
    rw [hcontent, if_pos rfl]
    exact hfound
  have hload : ImageFile.load checkpoint.directory = .ok (some image) := by
    have hmem : (name, batches) ∈ layout.files image.sealId := by
      rw [hfiles]
      exact List.mem_append_right _ List.mem_cons_self
    have hne : ImageFile.fileName ≠ name := hopened.imageName_ne hmem
    have hclean := hopened.load
    rw [load_of_plain hopened.plain, himage] at hclean
    rw [load_of_plain hplain, hothers _ hne, hclean]
  obtain ⟨hbatches, htruncated⟩ :=
    hopened.replay_altered checkpoint.log hkeys hothers hfiles hread
  have hrecovers :=
    recovers_of_replay hplain hload hfits (hbatches.trans hpending.symm) hstands tail
  rwa [htruncated] at hrecovers

end

end Checkpoint

end ViewIndex.Storage
