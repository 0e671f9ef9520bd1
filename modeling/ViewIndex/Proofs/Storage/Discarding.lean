import ViewIndex.Proofs.Storage.Tears

/-!
# Discarding stored state

State that cannot be used is discarded, but only the log is: the image stays. Where the image alone
is of no use either, there is nothing to recover from then on. But where it was only the logged
batches that went beyond the end of the feed, the next recovery gives the state of the image.
-/

namespace ViewIndex

namespace Directory

variable {directory done : Directory}

theorem after_eq_of_apply {effect : FileEffect} (h : directory.apply effect = .ok done) :
    done = directory.after effect := by
  cases effect <;> simp only [apply] at h
  case append number more => exact (Except.ok.inj h).symm
  -- The others take place unless a directory is in their way.
  all_goals
    split at h
    next => cases h
    next => exact (Except.ok.inj h).symm

/-- What succeeds has been carried out in full. -/
theorem run_append_of_ok {first last : List FileEffect}
    (h : directory.run (first ++ last) = (.ok (), done)) :
    (first.foldl after directory).run last = (.ok (), done) := by
  induction first generalizing directory with
  | nil => exact h
  | cons effect rest ih =>
      rw [List.cons_append, run] at h
      cases happly : directory.apply effect with
      | error e => simp [happly] at h
      | ok next =>
          rw [happly] at h
          rw [List.foldl_cons, ← after_eq_of_apply happly]
          exact ih h

theorem run_write_of_ok {name : String} {content : Bytes}
    (h : directory.run [.write name content] = (.ok (), done)) :
    directory.hasFolder name = false ∧ done = directory.setContent name content := by
  cases hfolder : directory.hasFolder name with
  | true => simp [run, apply, hfolder] at h
  | false =>
      simp only [run, apply, hfolder, Bool.false_eq_true, if_false, Prod.mk.injEq] at h
      exact ⟨rfl, h.2.symm⟩

theorem folders_foldl_remove (names : List String) (directory : Directory) :
    ((names.map FileEffect.remove).foldl after directory).folders = directory.folders := by
  induction names generalizing directory with
  | nil => rfl
  | cons name rest ih => exact ih _

theorem content?_foldl_remove (names : List String) (directory : Directory) (name : String) :
    ((names.map FileEffect.remove).foldl after directory).content? name
      = if name ∈ names then none else directory.content? name := by
  induction names generalizing directory with
  | nil => rfl
  | cons first rest ih =>
      rw [List.map_cons, List.foldl_cons, ih, after, content?_erase]
      by_cases hrest : name ∈ rest <;> by_cases hfirst : name = first <;> simp [hrest, hfirst]

end Directory

namespace Storage

open Directory (after)

namespace Log

/-- There is a current file without batches, and no other log file. -/
structure Bare (directory : Directory) : Prop where
  folder : directory.hasFolder fileName = false
  current : directory.content? fileName = some header
  sealed : sealedFiles directory = []

theorem sealedFiles_eq_nil {directory : Directory}
    (h : ∀ name, sealId? name ≠ none → directory.content? name = none) :
    sealedFiles directory = [] := by
  rw [sealedFiles, List.filterMap_eq_nil_iff.mpr, List.mergeSort_nil]
  intro name hname
  rw [Std.ExtTreeMap.mem_keys, Std.ExtTreeMap.mem_iff_isSome_getElem?] at hname
  by_contra hid
  have hnone := h name (by simpa using hid)
  rw [Directory.content?, Option.map_eq_none_iff] at hnone
  rw [hnone] at hname
  cases hname

theorem sealId?_of_mem_sealedFiles {directory : Directory} {item : Nat × String}
    (h : item ∈ sealedFiles directory) : sealId? item.2 = some item.1 := by
  rw [sealedFiles, List.mem_mergeSort, List.mem_filterMap] at h
  obtain ⟨name, -, hname⟩ := h
  obtain ⟨id, hid, rfl⟩ := Option.map_eq_some_iff.mp hname
  exact hid

theorem resetEffects_eq (directory : Directory) : resetEffects directory
    = ((sealedFiles directory).map Prod.snd).map .remove ++ [.write fileName header] := by
  rw [resetEffects, List.map_map]
  rfl

/-- A log that was emptied has no batches left, and the image is the one from before. -/
theorem bare_of_reset {log later : Log} (h : log.reset = (.ok (), later)) :
    Bare later.directory ∧ ImageFile.load later.directory = ImageFile.load log.directory := by
  let names := (sealedFiles log.directory).map Prod.snd
  let emptied := (names.map FileEffect.remove).foldl after log.directory
  obtain ⟨hfolder, hlater⟩ : emptied.hasFolder fileName = false ∧
      later.directory = emptied.setContent fileName header := by
    unfold Log.reset at h
    rw [resetEffects_eq] at h
    split at h
    next done hrun =>
      obtain rfl := (Prod.mk.inj h).2
      exact Directory.run_write_of_ok (Directory.run_append_of_ok hrun)
    next => cases (Prod.mk.inj h).1
  have hfolders : later.directory.folders = log.directory.folders := by
    rw [hlater]
    exact Directory.folders_foldl_remove names log.directory
  have hcontent (name : String) : later.directory.content? name =
      if name = fileName then some header
      else if name ∈ names then none else log.directory.content? name := by
    rw [hlater, Directory.content?_setContent, Directory.content?_foldl_remove]
  refine ⟨⟨?_, ?_, ?_⟩, ?_⟩
  · rw [hlater]
    exact hfolder
  · rw [hcontent, if_pos rfl]
  · apply sealedFiles_eq_nil
    intro name hid
    rw [hcontent, if_neg (ne_of_sealId? hid sealId?_fileName)]
    by_cases hname : (log.directory.number? name).isSome = true
    · -- Whatever looks like a sealed file was removed.
      obtain ⟨number, hnumber⟩ := Option.isSome_iff_exists.mp hname
      obtain ⟨id, hid⟩ := Option.ne_none_iff_exists'.mp hid
      rw [if_pos (List.mem_map.mpr ⟨_, mem_sealedFiles hnumber hid, rfl⟩)]
    · rw [Directory.number?, Option.isSome_map, Option.not_isSome_iff_eq_none] at hname
      rw [Directory.content?, hname]
      exact ite_self _
  · have hkept : ImageFile.fileName ∉ names := by
      intro hmem
      obtain ⟨item, hitem, hname⟩ := List.mem_map.mp hmem
      have hid := sealId?_of_mem_sealedFiles hitem
      rw [hname, sealId?_imageName] at hid
      cases hid
    have himage : later.directory.content? ImageFile.fileName
        = log.directory.content? ImageFile.fileName := by
      rw [hcontent, if_neg (by decide), if_neg hkept]
    rw [ImageFile.load, ImageFile.load, Directory.hasFolder, Directory.hasFolder, hfolders, himage]

theorem Bare.replay {log : Log} (h : Bare log.directory) (id : Nat) :
    log.replay id = ⟨[], 0, 0⟩ := by
  rw [Log.replay, h.sealed]
  simp only [List.filter_nil, List.map_nil, List.nil_append, List.map_cons, h.current]
  rfl

/-- Emptying it once more succeeds. -/
theorem Bare.reset {log : Log} (h : Bare log.directory) :
    ∃ later, log.reset = (.ok (), later) := by
  have heffects : resetEffects log.directory = [.write fileName header] := by
    rw [resetEffects, h.sealed]
    rfl
  have hrun : log.directory.run (resetEffects log.directory)
      = (.ok (), log.directory.setContent fileName header) := by
    simp [heffects, Directory.run, Directory.apply, h.folder]
  refine ⟨.ofDirectory (log.directory.setContent fileName header) log.lastSeal, ?_⟩
  rw [Log.reset, hrun]

theorem Bare.openIn {directory : Directory} (h : Bare directory) :
    Log.openIn directory = .ok (.ofDirectory directory 0) :=
  openIn_of_header h.current (List.prefix_refl _)

end Log

namespace Checkpoint

/-- What an image gives without any batches. -/
def imageAlone (image : Image) : Except StorageError Recovered := do
  let docs ← image.docs.foldlM addImageDoc ∅
  return ⟨image.position, docs.toList.map Prod.snd, 0, 0⟩

/-- The store as it is once its log was emptied. -/
structure Emptied (checkpoint last : Checkpoint) : Prop where
  signature_eq : last.signature = checkpoint.signature
  feedEpoch_eq : last.feedEpoch = checkpoint.feedEpoch
  load_eq : ImageFile.load last.directory = ImageFile.load checkpoint.directory
  bare : Log.Bare last.directory

/-- Recovering again, at once or after the store was opened anew. -/
inductive Retried (tail : Position) (checkpoint : Checkpoint) : Checkpoint → Prop where
  | still : Retried tail checkpoint checkpoint
  | recover {last : Checkpoint} (h : Retried tail checkpoint last) :
      Retried tail checkpoint (last.recover tail).2
  | reopen {last opened : Checkpoint} (h : Retried tail checkpoint last)
      (hopen : openIn last.directory last.signature last.feedEpoch = .ok opened) :
      Retried tail checkpoint opened

section

variable {checkpoint later last : Checkpoint} {tail : Position}

theorem emptied_of_resetLog (h : checkpoint.resetLog = (.ok (), later)) :
    checkpoint.Emptied later := by
  obtain ⟨hresult, rfl⟩ := Prod.mk.inj h
  have hreset : checkpoint.log.reset = (.ok (), checkpoint.log.reset.2) :=
    Prod.ext hresult rfl
  obtain ⟨hbare, hload⟩ := Log.bare_of_reset hreset
  exact ⟨rfl, rfl, hload, hbare⟩

theorem Emptied.trans (h : checkpoint.Emptied later) (hlast : later.Emptied last) :
    checkpoint.Emptied last where
  signature_eq := hlast.signature_eq.trans h.signature_eq
  feedEpoch_eq := hlast.feedEpoch_eq.trans h.feedEpoch_eq
  load_eq := hlast.load_eq.trans h.load_eq
  bare := hlast.bare

theorem Emptied.restore (h : checkpoint.Emptied last) (image : Image) :
    last.restore image = imageAlone image := by
  rw [Checkpoint.restore, h.bare.replay, imageAlone]
  rfl

theorem Emptied.exists_resetLog (h : checkpoint.Emptied last) :
    ∃ again, last.resetLog = (.ok (), again) := by
  obtain ⟨log, hreset⟩ := h.bare.reset
  exact ⟨{ last with log }, by rw [resetLog, hreset]⟩

/-- Recovery never fails on the log once it was emptied, and leaves it empty. -/
theorem Emptied.recover (h : checkpoint.Emptied last) (tail : Position) :
    (last.recover tail).1 = (ImageFile.load checkpoint.directory).bind (last.usable · tail) ∧
      checkpoint.Emptied (last.recover tail).2 := by
  rw [Checkpoint.recover, h.load_eq]
  split
  next recovered hresult => exact ⟨hresult.symm, h⟩
  next hresult =>
    obtain ⟨again, hreset⟩ := h.exists_resetLog
    rw [hreset, hresult]
    exact ⟨rfl, h.trans (emptied_of_resetLog hreset)⟩
  next e hresult => exact ⟨hresult.symm, h⟩

theorem Emptied.openIn (h : checkpoint.Emptied last) : ∃ opened,
    openIn last.directory last.signature last.feedEpoch = .ok opened ∧
      checkpoint.Emptied opened := by
  refine ⟨⟨last.signature, last.feedEpoch, .ofDirectory last.directory 0⟩, ?_,
    ⟨h.signature_eq, h.feedEpoch_eq, h.load_eq, h.bare⟩⟩
  have hlog : Log.openIn last.log.directory = .ok (.ofDirectory last.directory 0) := h.bare.openIn
  rw [Checkpoint.openIn, directory, hlog]
  rfl

theorem Retried.emptied (h : later.Retried tail last) (hlater : checkpoint.Emptied later) :
    checkpoint.Emptied last := by
  induction h with
  | still => exact hlater
  | recover _ ih => exact (ih.recover tail).2
  | reopen _ hopen ih =>
      obtain ⟨opened, hopened, hemptied⟩ := ih.openIn
      rw [hopened] at hopen
      exact Except.ok.inj hopen ▸ hemptied

/-- Where recovery gives nothing, all that is stored could be read. -/
theorem emptied_of_recover (h : checkpoint.recover tail = (.ok none, later)) :
    checkpoint.Emptied later ∧ ∃ image, ImageFile.load checkpoint.directory = .ok image ∧
      checkpoint.usable image tail = .ok none := by
  unfold Checkpoint.recover at h
  split at h
  next => cases (Prod.mk.inj h).1
  next hresult =>
    cases hreset : checkpoint.resetLog with
    | mk result cleared =>
    rw [hreset] at h
    obtain ⟨hok, rfl⟩ := Prod.mk.inj h
    refine ⟨emptied_of_resetLog ?_, ?_⟩
    · cases result with
      | ok => exact hreset
      | error e => cases hok
    · cases hload : ImageFile.load checkpoint.directory with
      | ok image =>
          rw [hload] at hresult
          exact ⟨image, rfl, hresult⟩
      | error e =>
          rw [hload] at hresult
          cases hresult
  next => cases (Prod.mk.inj h).1

theorem usable_of_fits {image : Image} (hfits : checkpoint.fits image = true) (tail : Position) :
    checkpoint.usable (some image) tail = (do
      let recovered ← checkpoint.restore image
      return if isAhead recovered.position tail then none else some recovered) := by
  rw [usable, Option.filter_some, if_pos hfits]

theorem usable_of_not_fits {stored : Option Image}
    (h : ∀ image, stored = some image → ¬checkpoint.fits image = true) (tail : Position) :
    checkpoint.usable stored tail = .ok none := by
  rw [usable, Option.filter_eq_none_iff.mpr h]

/-- The documents of an image that was restored with its batches can be read without them. -/
theorem exists_docs_of_restore {image : Image} {recovered : Recovered}
    (h : checkpoint.restore image = .ok recovered) :
    ∃ docs, image.docs.foldlM addImageDoc ∅ = .ok docs := by
  unfold Checkpoint.restore at h
  cases hdocs : image.docs.foldlM addImageDoc ∅ with
  | ok docs => exact ⟨docs, rfl⟩
  | error e =>
      rw [hdocs] at h
      cases h

/-- Once recovery gave nothing, the store can always be opened again, and nothing but the image
counts: there is still nothing to recover unless the image is one for this view and this feed and
its own position does not lie beyond the end of the feed. In that case its state comes back. -/
theorem recover_again (h : checkpoint.recover tail = (.ok none, later))
    (hlast : later.Retried tail last) :
    (∃ opened, openIn last.directory last.signature last.feedEpoch = .ok opened) ∧
    ((last.recover tail).1 = .ok none ↔ ∀ image,
      ImageFile.load checkpoint.directory = .ok (some image) → checkpoint.fits image = true →
        isAhead image.position tail = true) ∧
    ∀ image, ImageFile.load checkpoint.directory = .ok (some image) →
      checkpoint.fits image = true → isAhead image.position tail = false →
        ∃ docs, image.docs.foldlM addImageDoc ∅ = .ok docs ∧
          (last.recover tail).1 = .ok (some ⟨image.position, docs.toList.map Prod.snd, 0, 0⟩) := by
  obtain ⟨hlater, stored, hload, husable⟩ := emptied_of_recover h
  have hemptied := hlast.emptied hlater
  have hfits : last.fits = checkpoint.fits := by
    funext image
    rw [fits, fits, hemptied.signature_eq, hemptied.feedEpoch_eq]
  have hagain : (last.recover tail).1 = last.usable stored tail := by
    rw [(hemptied.recover tail).1, hload]
    rfl
  obtain ⟨opened, hopen, -⟩ := hemptied.openIn
  refine ⟨⟨opened, hopen⟩, ?_⟩
  simp only [hagain, hload, Except.ok.injEq]
  by_cases hsome : ∃ image, stored = some image ∧ checkpoint.fits image = true
  · obtain ⟨image, rfl, hfit⟩ := hsome
    rw [usable_of_fits hfit] at husable
    obtain ⟨docs, hdocs⟩ : ∃ docs, image.docs.foldlM addImageDoc ∅ = .ok docs := by
      cases hrestore : checkpoint.restore image with
      | ok recovered => exact exists_docs_of_restore hrestore
      | error e =>
          rw [hrestore] at husable
          cases husable
    let alone : Recovered := ⟨image.position, docs.toList.map Prod.snd, 0, 0⟩
    have halone : last.usable (some image) tail
        = .ok (if isAhead image.position tail then none else some alone) := by
      rw [usable_of_fits (hfits ▸ hfit), hemptied.restore, imageAlone, hdocs]
      rfl
    rw [halone]
    simp only [Option.some_inj, forall_eq', hfit, true_imp_iff]
    cases isAhead image.position tail with
    | true => simp
    | false => simp [hdocs, alone]
  · have hnone : ∀ image, stored = some image → ¬checkpoint.fits image = true :=
      fun image himage hfit => hsome ⟨image, himage, hfit⟩
    rw [usable_of_not_fits (hfits ▸ hnone)]
    exact ⟨iff_of_true rfl fun image himage hfit => absurd hfit (hnone image himage),
      fun image himage hfit => absurd hfit (hnone image himage)⟩

theorem recover_eq_of_fst {result : Except StorageError (Option Recovered)}
    (h : (checkpoint.recover tail).1 = result) :
    checkpoint.recover tail = (result, (checkpoint.recover tail).2) :=
  Prod.ext h rfl

end

/-! ## A batch beyond the end of the feed -/

namespace Ahead

def image : Image := ⟨1, 7, 1, .upTo 1 fun _ => 5, [⟨"a1", [(⟨[0x10]⟩, "1")]⟩]⟩

def batch : Batch := ⟨.upTo 2 fun p => if p = 0 then 5 else 2, [⟨"a2", [(⟨[0x10]⟩, "2")]⟩]⟩

/-- The image is within the feed, but the batch behind it is not. -/
def directory : Directory :=
  (({} : Directory).setContent ImageFile.fileName (ImageFile.encode image)).setContent
    Log.fileName (Log.fileOf [batch])

def checkpoint : Checkpoint := ⟨1, 7, .ofDirectory directory 0⟩

def tail : Position := .upTo 2 fun p => if p = 0 then 5 else 1

theorem recover_eq : checkpoint.recover tail = (.ok none, (checkpoint.recover tail).2) :=
  recover_eq_of_fst (by decide +kernel)

theorem load_eq : ImageFile.load checkpoint.directory = .ok (some image) := by decide +kernel

end Ahead

/-- After nothing was recovered, the store is opened again, and the state of the image is there. -/
theorem recover_again_ahead : ∃ later opened docs,
    Ahead.checkpoint.recover Ahead.tail = (.ok none, later) ∧
      openIn later.directory later.signature later.feedEpoch = .ok opened ∧
      (opened.recover Ahead.tail).1 = .ok (some ⟨.upTo 1 fun _ => 5, docs, 0, 0⟩) := by
  obtain ⟨⟨opened, hopen⟩, -, -⟩ := recover_again Ahead.recover_eq .still
  obtain ⟨-, -, himage⟩ := recover_again Ahead.recover_eq (.reopen .still hopen)
  obtain ⟨docs, -, hagain⟩ := himage Ahead.image Ahead.load_eq (by decide) (by decide +kernel)
  exact ⟨_, opened, _, Ahead.recover_eq, hopen, hagain⟩

/-- What was discarded does not always stay discarded. -/
theorem not_recover_again_none : ∃ checkpoint later, openIn Ahead.directory 1 7 = .ok checkpoint ∧
    checkpoint.recover Ahead.tail = (.ok none, later) ∧
      (later.recover Ahead.tail).1 ≠ .ok none := by
  have hopen : openIn Ahead.directory 1 7 = .ok Ahead.checkpoint := rfl
  exact ⟨Ahead.checkpoint, _, hopen, Ahead.recover_eq, by decide +kernel⟩

end Checkpoint

end Storage

end ViewIndex
