import ViewIndex.Proofs.Storage.Layout

/-!
# Operations on a stored view

What an operation makes of the layout, and what an interrupted one leaves behind: the batches that
an image lacks can be read back at any moment, whichever of the effects have taken place.
-/

namespace ViewIndex.Storage

open Directory (after)

variable {directory : Directory} {layout : Layout}

/-! ## Removing sealed files -/

/-- Some of the sealed files up to a number are removed, in any order. -/
theorem Laid.removing (h : Laid directory layout) {upTo : Nat} {effects : List FileEffect}
    (heffects : ∀ effect ∈ effects, ∃ id < 2 ^ 64, id ≤ upTo ∧
      effect = .remove (Log.sealName id)) :
    ∃ segments, Laid (effects.foldl after directory) ⟨layout.image, segments, layout.current⟩ ∧
      (∀ segment ∈ segments, segment ∈ layout.sealed) ∧
      (∀ id, upTo ≤ id →
        Layout.pending ⟨layout.image, segments, layout.current⟩ id = layout.pending id) ∧
      (effects.foldl after directory).number? Log.fileName
        = directory.number? Log.fileName := by
  induction effects generalizing directory layout with
  | nil => exact ⟨layout.sealed, h, fun _ hsegment => hsegment, fun _ _ => rfl, rfl⟩
  | cons effect rest ih =>
      obtain ⟨id, hid, hupTo, rfl⟩ := heffects effect List.mem_cons_self
      obtain ⟨segments, hlaid, hmem, hpending, hnumber⟩ := ih (h.removeSealed hid)
        fun later hlater => heffects later (List.mem_cons_of_mem _ hlater)
      refine ⟨segments, hlaid, fun segment hsegment => List.mem_of_mem_filter (hmem _ hsegment),
        fun other hother => ?_, ?_⟩
      · rw [hpending other hother]
        -- An image that is behind a later seal lacks nothing of the file that goes.
        have hkept : ∀ segment : Nat × List Batch,
            (decide (other < segment.1) && decide (segment.1 ≠ id))
              = decide (other < segment.1) := by
          intro segment
          by_cases hlt : other < segment.1
          · simp [hlt]
            omega
          · simp [hlt]
        simp only [Layout.pending, List.filter_filter, hkept]
      · refine hnumber.trans ?_
        exact (Directory.number?_erase _ _).trans (if_neg (sealName_ne hid Log.sealId?_fileName))

theorem Laid.exists_of_cleanup (h : Laid directory layout) {upTo : Nat} {effect : FileEffect}
    (heffect : effect ∈ Log.cleanupEffects directory upTo) :
    ∃ id < 2 ^ 64, id ≤ upTo ∧ effect = .remove (Log.sealName id) := by
  unfold Log.cleanupEffects at heffect
  split at heffect
  next => cases heffect
  next =>
    obtain ⟨item, hitem, rfl⟩ := List.mem_map.mp heffect
    obtain ⟨hitem, hupTo⟩ := List.mem_filter.mp hitem
    obtain ⟨segment, hsegment, rfl⟩ := (h.mem_sealedFiles_iff item).mp hitem
    exact ⟨segment.1, h.id_lt segment hsegment, of_decide_eq_true hupTo, rfl⟩

theorem Laid.exists_of_sealed (h : Laid directory layout) {effect : FileEffect}
    (heffect : effect ∈ (Log.sealedFiles directory).map fun (_, name) => FileEffect.remove name) :
    ∃ id < 2 ^ 64, id ≤ 2 ^ 64 ∧ effect = .remove (Log.sealName id) := by
  obtain ⟨item, hitem, rfl⟩ := List.mem_map.mp heffect
  obtain ⟨segment, hsegment, rfl⟩ := (h.mem_sealedFiles_iff item).mp hitem
  have hid := h.id_lt segment hsegment
  exact ⟨segment.1, hid, Nat.le_of_lt hid, rfl⟩

/-- Some of the sealed files are removed, and the current one may be emptied. -/
theorem Laid.discarding (h : Laid directory layout) {effects : List FileEffect}
    (heffects : effects ⊆ Log.resetEffects directory) :
    ∃ later, Laid (effects.foldl after directory) later ∧ later.image = layout.image := by
  have hkinds : ∀ effect ∈ effects, (∃ id < 2 ^ 64, effect = .remove (Log.sealName id)) ∨
      effect = .write Log.fileName Log.header := by
    intro effect heffect
    rcases List.mem_append.mp (heffects heffect) with hremove | hwrite
    · obtain ⟨id, hid, -, heq⟩ := h.exists_of_sealed hremove
      exact .inl ⟨id, hid, heq⟩
    · exact .inr (List.mem_singleton.mp hwrite)
  clear heffects
  induction effects generalizing directory layout with
  | nil => exact ⟨layout, h, rfl⟩
  | cons effect rest ih =>
      obtain ⟨hfirst, hrest⟩ := List.forall_mem_cons.mp hkinds
      rcases hfirst with ⟨id, hid, rfl⟩ | rfl
      · obtain ⟨later, hlater, himage⟩ := ih (h.removeSealed hid) hrest
        exact ⟨later, hlater, himage⟩
      · obtain ⟨later, hlater, himage⟩ := ih h.create hrest
        exact ⟨later, hlater, himage⟩

/-! ## Saving images -/

/-- While an image is being saved, the last one stays. -/
theorem Laid.saving (h : Laid directory layout) {image : Image} {effects : List FileEffect}
    (heffects : effects <+: ImageFile.saveEffects image)
    (hne : effects ≠ ImageFile.saveEffects image) :
    Laid (effects.foldl after directory) layout := by
  unfold ImageFile.saveEffects at heffects hne
  simp only [List.prefix_cons_iff, List.prefix_nil] at heffects
  rcases heffects with rfl | ⟨_, rfl, rfl | ⟨_, rfl, rfl | ⟨_, rfl, rfl⟩⟩⟩
  · exact h
  · exact h.draft _
  · exact (h.draft _).draft _
  · exact absurd rfl hne

theorem number?_saved (directory : Directory) (image : Image) {name : String}
    (htemporary : name ≠ ImageFile.temporaryName) (hfinal : name ≠ ImageFile.fileName) :
    ((ImageFile.saveEffects image).foldl after directory).number? name
      = directory.number? name := by
  let incomplete := directory.setContent ImageFile.temporaryName
    (ImageFile.header ImageFile.incomplete 0 0 ++ Binary.encodeImage image)
  let complete := incomplete.setContent ImageFile.temporaryName (ImageFile.encode image)
  have hcomplete : complete.content? ImageFile.temporaryName = some (ImageFile.encode image) := by
    rw [Directory.content?_setContent, if_pos rfl]
  change (complete.move ImageFile.temporaryName ImageFile.fileName).number? name = _
  rw [Directory.number?_move hcomplete hfinal htemporary, Directory.number?_setContent,
    if_neg htemporary, Directory.number?_setContent, if_neg htemporary]

theorem Laid.saved (h : Laid directory layout) {image : Image}
    (hfitting : ImageFile.Fitting image) :
    Laid ((ImageFile.saveEffects image).foldl after directory)
      ⟨some image, layout.sealed, layout.current⟩ := by
  apply ((h.draft _).draft _).install hfitting
  rw [Directory.content?_setContent, if_pos rfl]

/-! ## The log -/

namespace Log

/-- The highest number that was given out to a seal, if the ones before this opening end at a
floor. -/
def given (log : Log) (floor : Nat) : Nat := max floor log.lastSeal

/-- An open log: it appends to the current file, and neither the image nor a sealed file has a
number that was not given out. -/
structure Open (log : Log) (floor : Nat) (image : Option Image)
    (segments : List (Nat × List Batch)) (batches : List Batch) : Prop where
  laid : Laid log.directory ⟨image, segments, some batches⟩
  number : log.directory.number? fileName = some log.handle
  segment_le : ∀ segment ∈ segments, segment.1 ≤ log.given floor
  image_le : ∀ saved, image = some saved → saved.sealId ≤ log.given floor

theorem header_prefix_fileOf (batches : List Batch) : header <+: fileOf batches :=
  List.prefix_append _ _

theorem lastSeal_openIn {log : Log} (h : Log.openIn directory = .ok log) :
    log.lastSeal = 0 := by
  unfold Log.openIn at h
  split at h
  next => exact (Except.ok.inj h) ▸ rfl
  next => cases h

/-- A file that begins as it should is taken over as it is. -/
theorem openIn_of_header {content : Bytes} (h : directory.content? fileName = some content)
    (hheader : header <+: content) : Log.openIn directory = .ok (.ofDirectory directory 0) := by
  have heffects : openEffects directory = [] := by
    rw [openEffects, h, Option.any_some, if_pos (List.isPrefixOf_iff_prefix.mpr hheader)]
  rw [Log.openIn, heffects]
  rfl

/-- Opening adds the current file if it is missing, and changes nothing else. -/
theorem laid_openIn (h : Laid directory layout) : ∃ log, Log.openIn directory = .ok log ∧
    log.directory.number? fileName = some log.handle ∧
    Laid log.directory ⟨layout.image, layout.sealed, some (layout.current.getD [])⟩ := by
  obtain ⟨image, segments, current⟩ := layout
  cases current with
  | none =>
      have heffects : openEffects directory = [.write fileName header] := by
        simp [openEffects, h.current]
      have hlaid := h.create
      refine ⟨.ofDirectory (directory.setContent fileName header) 0, ?_, ?_, hlaid⟩
      · rw [Log.openIn, heffects, (h.plain.run _).1]
        rfl
      · exact Directory.number?_of_content? hlaid.current
  | some batches =>
      exact ⟨.ofDirectory directory 0, openIn_of_header h.current (header_prefix_fileOf batches),
        Directory.number?_of_content? h.current, h⟩

theorem open_openIn (h : Laid directory layout) (floor : Nat)
    (hsegments : ∀ segment ∈ layout.sealed, segment.1 ≤ floor)
    (himage : ∀ image, layout.image = some image → image.sealId ≤ floor) :
    ∃ log, Log.openIn directory = .ok log ∧
      log.Open floor layout.image layout.sealed (layout.current.getD []) := by
  obtain ⟨log, hopen, hnumber, hlaid⟩ := laid_openIn h
  refine ⟨log, hopen, hlaid, hnumber, fun segment hsegment => ?_, fun image hsome => ?_⟩
  · exact (hsegments segment hsegment).trans (Nat.le_max_left _ _)
  · exact (himage image hsome).trans (Nat.le_max_left _ _)

section Open

variable {log : Log} {floor : Nat} {image : Option Image} {segments : List (Nat × List Batch)}
  {batches : List Batch}

theorem Open.append (h : log.Open floor image segments batches) {batch : Batch}
    (hframed : Framed batch) :
    (log.append batch).Open floor image segments (batches ++ [batch]) := by
  have hrecord : checkRecord batch = .ok () := if_pos hframed.size
  have hdirectory : (log.append batch).directory
      = log.directory.extend (log.directory.numberOf fileName) (frame batch) := by
    rw [Log.append, appendEffects, hrecord, Directory.numberOf_eq h.number]
    rfl
  exact {
    laid := by
      rw [hdirectory]
      exact h.laid.append rfl hframed
    number := by
      rw [hdirectory, Directory.number?_extend]
      exact h.number
    segment_le := h.segment_le
    image_le := h.image_le }

/-- The next number is above all that were given out, if the clock is past those from before. -/
theorem given_lt_nextSeal {now : Nat} (hclock : floor < log.nextSeal now) :
    log.given floor < log.nextSeal now :=
  Nat.max_lt.mpr ⟨hclock, Nat.lt_of_lt_of_le (Nat.lt_succ_self _) (Nat.le_max_right _ _)⟩

theorem Open.lt_nextSeal (h : log.Open floor image segments batches) {now : Nat}
    (hclock : floor < log.nextSeal now) : ∀ segment ∈ segments, segment.1 < log.nextSeal now := by
  intro segment hsegment
  exact Nat.lt_of_le_of_lt (h.segment_le segment hsegment) (given_lt_nextSeal hclock)

theorem Open.sealEffects_eq (h : log.Open floor image segments batches) (id : Nat) :
    sealEffects log.directory id = [.rename fileName (sealName id), .write fileName header] := by
  have hhas : log.directory.has fileName = true := by
    have hnumber := h.number
    unfold Directory.number? at hnumber
    obtain ⟨file, hfile, -⟩ := Option.map_eq_some_iff.mp hnumber
    simp [Directory.has, Std.ExtTreeMap.contains_eq_isSome_getElem?, hfile]
  rw [sealEffects, if_pos hhas]
  rfl

/-- While the log is being sealed, no batch gets lost that an image with an earlier seal lacks. -/
theorem Open.sealing (h : log.Open floor image segments batches) {now : Nat}
    (hclock : floor < log.nextSeal now) (hnow : log.nextSeal now < 2 ^ 64)
    {effects : List FileEffect}
    (heffects : effects <+: sealEffects log.directory (log.nextSeal now)) :
    ∃ later, Laid (effects.foldl after log.directory) later ∧ later.image = image ∧
      ∀ id ≤ log.given floor,
        later.pending id = Layout.pending ⟨image, segments, some batches⟩ id := by
  have haside := h.laid.setAside rfl hnow (h.lt_nextSeal hclock)
  have hlt : ∀ id ≤ log.given floor, id < log.nextSeal now := fun id hid =>
    Nat.lt_of_le_of_lt hid (given_lt_nextSeal hclock)
  rw [h.sealEffects_eq] at heffects
  simp only [List.prefix_cons_iff, List.prefix_nil] at heffects
  -- Nothing was done, the file was renamed, or the new one was created, too.
  rcases heffects with rfl | ⟨_, rfl, rfl | ⟨_, rfl, rfl⟩⟩
  · exact ⟨_, h.laid, rfl, fun _ _ => rfl⟩
  · exact ⟨_, haside, rfl, fun id hid => Layout.pending_setAside (hlt id hid) rfl⟩
  · exact ⟨_, haside.create, rfl, fun id hid => Layout.pending_setAside (hlt id hid) rfl⟩

theorem Open.sealAt (h : log.Open floor image segments batches) {now : Nat}
    (hclock : floor < log.nextSeal now) (hnow : log.nextSeal now < 2 ^ 64) :
    ∃ later : Log, log.sealAt now = (.ok (log.nextSeal now), later) ∧
      later.given floor = log.nextSeal now ∧
      later.Open floor image (segments ++ [(log.nextSeal now, batches)]) [] := by
  have hlaid := (h.laid.setAside rfl hnow (h.lt_nextSeal hclock)).create
  have hgiven : log.nextSeal now ≤ max floor (log.nextSeal now) := Nat.le_max_right _ _
  refine ⟨.ofDirectory _ (log.nextSeal now), ?_, Nat.max_eq_right hclock.le, hlaid,
    Directory.number?_of_content? hlaid.current, ?_, ?_⟩
  · rw [Log.sealAt, h.sealEffects_eq, (h.laid.plain.run _).1]
    rfl
  · intro segment hsegment
    refine Nat.le_trans ?_ hgiven
    rcases List.mem_append.mp hsegment with hsegment | hsegment
    · exact Nat.le_of_lt (h.lt_nextSeal hclock segment hsegment)
    · rw [List.mem_singleton.mp hsegment]
  · intro saved hsaved
    exact ((h.image_le saved hsaved).trans (given_lt_nextSeal hclock).le).trans hgiven

/-- A saved image takes the place of the last one. -/
theorem Open.save (h : log.Open floor image segments batches) {saved : Image}
    (hfitting : ImageFile.Fitting saved) (hgiven : saved.sealId ≤ log.given floor) :
    ∃ later, ImageFile.save log.directory saved = (.ok (), later) ∧
      Open { log with directory := later } floor (some saved) segments batches := by
  refine ⟨(ImageFile.saveEffects saved).foldl after log.directory, ?_, h.laid.saved hfitting, ?_,
    h.segment_le, ?_⟩
  · rw [ImageFile.save, if_pos hfitting.size, (h.laid.plain.run _).1]
  · exact (number?_saved log.directory saved (by decide) (by decide)).trans h.number
  · rintro _ ⟨⟩
    exact hgiven

/-- An image that is too large is not put in place of the last one. -/
theorem Open.save_of_not_fits (h : log.Open floor image segments batches) {saved : Image}
    (hsize : ImageFile.fits saved = false) :
    ∃ later, ImageFile.save log.directory saved = (.error .imageTooLarge, later) ∧
      Open { log with directory := later } floor image segments batches := by
  refine ⟨log.directory.after (ImageFile.draft saved), ?_, h.laid.draft _, ?_, h.segment_le,
    h.image_le⟩
  · rw [ImageFile.save, if_neg (by simp [hsize])]
    simp only [(h.laid.plain.run _).1]
    rfl
  · exact (Directory.number?_setContent _ _ _).trans ((if_neg (by decide)).trans h.number)

theorem Open.cleanup (h : log.Open floor image segments batches) (upTo : Nat) :
    ∃ kept, (log.cleanup upTo).Open floor image kept batches ∧
      ∀ id, upTo ≤ id → Layout.pending ⟨image, kept, some batches⟩ id
        = Layout.pending ⟨image, segments, some batches⟩ id := by
  obtain ⟨kept, hlaid, hmem, hpending, hnumber⟩ :=
    h.laid.removing fun effect (heffect : effect ∈ cleanupEffects log.directory upTo) =>
      h.laid.exists_of_cleanup heffect
  have hdirectory : (log.cleanup upTo).directory
      = (cleanupEffects log.directory upTo).foldl after log.directory := by
    rw [Log.cleanup, (h.laid.plain.run _).1]
  refine ⟨kept, ⟨?_, ?_, ?_, h.image_le⟩, hpending⟩
  · rw [hdirectory]
    exact hlaid
  · rw [hdirectory, hnumber]
    exact h.number
  · intro segment hsegment
    exact h.segment_le segment (hmem segment hsegment)

theorem Open.removeImage (h : log.Open floor image segments batches) : ∃ bare,
    log.directory.run (Checkpoint.removeImageEffects log.directory) = (.ok (), bare) ∧
      Open { log with directory := bare } floor none segments batches := by
  refine ⟨_, (h.laid.plain.run _).1, ?_⟩
  rw [Checkpoint.removeImageEffects]
  by_cases hhas : log.directory.has ImageFile.fileName = true
  · rw [if_pos hhas]
    refine ⟨h.laid.removeImage, ?_, h.segment_le, fun _ hsaved => by cases hsaved⟩
    exact (Directory.number?_erase _ _).trans ((if_neg (by decide)).trans h.number)
  · rw [if_neg hhas]
    have hnone : image = none := by
      have himage := h.laid.image
      simp only [Directory.has, Bool.or_eq_true, not_or, Std.ExtTreeMap.contains_eq_isSome_getElem?,
        Option.not_isSome_iff_eq_none] at hhas
      rw [Directory.content?, hhas.1] at himage
      simpa using himage.symm
    subst hnone
    exact h

theorem Open.reset (h : log.Open floor image segments batches) :
    ∃ kept later, log.reset = (.ok (), later) ∧ later.Open floor image kept [] ∧
      later.lastSeal = log.lastSeal := by
  obtain ⟨kept, hlaid, hmem, -, -⟩ := h.laid.removing fun effect heffect =>
    h.laid.exists_of_sealed heffect
  have hcreate := hlaid.create
  refine ⟨kept, .ofDirectory _ log.lastSeal, ?_, ⟨hcreate,
    Directory.number?_of_content? hcreate.current, fun segment hsegment =>
      h.segment_le segment (hmem segment hsegment), h.image_le⟩, rfl⟩
  rw [Log.reset, resetEffects, (h.laid.plain.run _).1, List.foldl_append]
  rfl

end Open

end Log

end ViewIndex.Storage
