import ViewIndex.Proofs.Storage.Crashes

/-!
# Torn frames

When a crash tears the frame that is being appended, its first bytes stay at the end of the open
log. They are never read as a batch, and a tear behind the eight bytes of length and sum is noticed.
The bytes do no harm once the log is sealed or discarded: the stored view is then the one that would
be there without them.
-/

namespace ViewIndex.Storage

open Directory (after)

namespace Log

/-! ## Reading a torn frame -/

theorem readFrame_eq_none {bytes : Bytes} (h : bytes.length < 8) : readFrame bytes = none := by
  unfold readFrame
  by_cases hlength : 4 ≤ bytes.length
  · have hfirst : Bytes.split? 4 bytes = some (bytes.take 4, bytes.drop 4) := if_pos hlength
    have hsecond : Bytes.split? 4 (bytes.drop 4) = none := by
      apply if_neg
      rw [List.length_drop]
      omega
    simp only [hfirst, bind, Option.bind_some, hsecond, Option.bind_none]
  · have hfirst : Bytes.split? 4 bytes = none := if_neg hlength
    simp only [hfirst, bind, Option.bind_none]

/-- Only a tear behind the first eight bytes is noticed. -/
theorem readFrames_torn {batch : Batch} (h : Framed batch) {cut : Nat}
    (hcut : cut < (frame batch).length) (fuel : Nat) :
    readFrames (fuel + 1) ((frame batch).take cut) = ⟨[], if cut < 8 then 0 else 1⟩ := by
  by_cases hshort : cut < 8
  · have hlength : ((frame batch).take cut).length < 8 :=
      Nat.lt_of_le_of_lt (List.length_take_le _ _) hshort
    rw [readFrames, readFrame_eq_none hlength, if_pos hshort]
  · let record := Binary.encodeBatch batch
    let start := Bytes.littleEndian 4 record.length ++
      Bytes.littleEndian 4 (recordSum record).toNat
    have hstart : start.length = 8 := by simp [start]
    have hframe : frame batch = start ++ record := rfl
    have htake : (frame batch).take cut = start ++ record.take (cut - 8) := by
      rw [hframe, List.take_append, hstart, List.take_of_length_le (by omega)]
    have hsplit : Bytes.split? record.length (record.take (cut - 8)) = none := by
      apply if_neg
      rw [hframe, List.length_append, hstart] at hcut
      rw [List.length_take]
      omega
    rw [htake, readFrames, readFrame_header h.size (recordSum record).toNat_lt, hsplit,
      if_neg hshort]
    rfl

theorem readFile_torn {batches : List Batch} (h : ∀ batch ∈ batches, Framed batch) {batch : Batch}
    (hbatch : Framed batch) {cut : Nat} (hcut : cut < (frame batch).length) :
    readFile (fileOf batches ++ (frame batch).take cut)
      = ⟨batches, if cut < 8 then 0 else 1⟩ := by
  have hread := readFile_append h (readFrames_torn hbatch hcut)
  rwa [List.append_nil] at hread

/-! ## Logs with bytes left over -/

/-- The log with more bytes at the end of its open file. -/
def fray (log : Log) (more : Bytes) : Log :=
  { log with directory := log.directory.extend log.handle more }

section

variable {log : Log} {floor : Nat} {image : Option Image} {segments : List (Nat × List Batch)}
  {batches : List Batch}

theorem sealedFiles_extend (directory : Directory) (number : Nat) (more : Bytes) :
    sealedFiles (directory.extend number more) = sealedFiles directory := by
  rw [sealedFiles, Directory.extend, Std.ExtTreeMap.keys_map]
  rfl

theorem fray_nil (log : Log) : log.fray [] = log := by
  rw [fray, Directory.extend_nil]

theorem append_fray (h : log.directory.Plain) (more : Bytes) {batch : Batch}
    (hframed : Framed batch) :
    (log.fray more).append batch = log.fray (more ++ frame batch) := by
  have hrecord : checkRecord batch = .ok () := if_pos hframed.size
  have heffects : (log.fray more).appendEffects batch = [.append log.handle (frame batch)] := by
    rw [appendEffects, hrecord]
    rfl
  have hplain : (log.fray more).directory.Plain := h.extend _ _
  rw [append, heffects, (hplain.run _).1]
  exact congrArg (fun directory => { log with directory }) (Directory.extend_extend _ _ _)

/-- Discarding all batches discards the bytes, too. -/
theorem Open.reset_fray (h : log.Open floor image segments batches) (more : Bytes) :
    (log.fray more).reset = log.reset := by
  let removals : List FileEffect := (sealedFiles log.directory).map fun item => .remove item.2
  have hremovals : ∀ effect ∈ removals, ∃ name, effect = .remove name := by
    intro effect heffect
    obtain ⟨item, -, rfl⟩ := List.mem_map.mp heffect
    exact ⟨_, rfl⟩
  obtain ⟨kept, hlaid, -, -, hnumber⟩ := h.laid.removing fun effect (heffect : effect ∈ removals) =>
    h.laid.exists_of_sealed heffect
  have heffects : resetEffects (log.fray more).directory = resetEffects log.directory := by
    rw [resetEffects, fray, sealedFiles_extend, ← resetEffects]
  have hfinal : (resetEffects log.directory).foldl after (log.fray more).directory
      = (resetEffects log.directory).foldl after log.directory := by
    rw [resetEffects, List.foldl_append, List.foldl_append, fray,
      Directory.foldl_after_extend hremovals]
    exact Directory.setContent_extend_self hlaid.plain more (hnumber.trans h.number) header
  have hplain : (log.fray more).directory.Plain := h.laid.plain.extend _ _
  rw [Log.reset, Log.reset, heffects, (hplain.run _).1, (h.laid.plain.run _).1, hfinal]
  rfl

/-- Sealing puts the bytes aside together with the batches before them. -/
theorem Open.sealAt_fray (h : log.Open floor image segments batches) {now : Nat}
    (hlt : log.nextSeal now < 2 ^ 64) (more : Bytes) :
    ∃ later, log.sealAt now = (.ok (log.nextSeal now), later) ∧
      (log.fray more).sealAt now = (.ok (log.nextSeal now),
        { later with directory := later.directory.extend log.handle more }) ∧
      later.directory.number? (sealName (log.nextSeal now)) = some log.handle := by
  let name := sealName (log.nextSeal now)
  have hne : fileName ≠ name := sealName_ne hlt sealId?_fileName
  obtain ⟨file, hfile, hhandle⟩ := Option.map_eq_some_iff.mp h.number
  have hmoved := Directory.getElem?_files_move hfile name
  -- The new file gets a number of its own.
  have hnew : (log.directory.move fileName name).numberOf fileName ≠ log.handle := by
    have hcreated : (log.directory.move fileName name).created = log.directory.created := by
      simp only [Directory.move, hfile]
    rw [Directory.numberOf, hmoved, if_neg hne, if_pos rfl, Option.map_none, Option.getD_none,
      hcreated, ← hhandle]
    exact (h.laid.plain.number_lt fileName file hfile).ne'
  have heffects : sealEffects (log.fray more).directory (log.nextSeal now)
      = [.rename fileName name, .write fileName header] := by
    rw [← h.sealEffects_eq, sealEffects, sealEffects, fray, Directory.has_extend]
  refine ⟨.ofDirectory ((log.directory.move fileName name).setContent fileName header)
    (log.nextSeal now), ?_, ?_, ?_⟩
  · rw [Log.sealAt, h.sealEffects_eq, (h.laid.plain.run _).1]
    rfl
  · have hplain : (log.fray more).directory.Plain := h.laid.plain.extend _ _
    have hnext : (log.fray more).nextSeal now = log.nextSeal now := rfl
    have hfinal : [.rename fileName name, .write fileName header].foldl after
        (log.fray more).directory = ((log.directory.move fileName name).setContent fileName
          header).extend log.handle more := by
      rw [← Directory.setContent_extend more header hnew, ← Directory.move_extend]
      rfl
    rw [Log.sealAt, hnext, heffects, (hplain.run _).1, hfinal]
    simp only [ofDirectory, Directory.numberOf_extend]
  · rw [ofDirectory, Directory.number?_setContent, if_neg hne.symm, Directory.number?, hmoved,
      if_pos rfl, Option.map_some, hhandle]

theorem mem_sealedFiles {directory : Directory} {name : String} {id number : Nat}
    (hname : directory.number? name = some number) (hid : sealId? name = some id) :
    (id, name) ∈ sealedFiles directory := by
  obtain ⟨file, hfile, -⟩ := Option.map_eq_some_iff.mp hname
  rw [sealedFiles, List.mem_mergeSort, List.mem_filterMap]
  refine ⟨name, ?_, by rw [hid]; rfl⟩
  rw [Std.ExtTreeMap.mem_keys, Std.ExtTreeMap.mem_iff_isSome_getElem?, hfile]
  rfl

variable (log) in
/-- The bytes go with the sealed file that they stand in. -/
theorem cleanup_extend (h : log.directory.Plain) {id number : Nat} (hpos : id ≠ 0)
    (hlt : id < 2 ^ 64) (hnumber : log.directory.number? (sealName id) = some number)
    (more : Bytes) :
    Log.cleanup { log with directory := log.directory.extend number more } id
      = log.cleanup id := by
  have hremovals : ∀ effect ∈ cleanupEffects log.directory id, ∃ name, effect = .remove name := by
    intro effect heffect
    rw [cleanupEffects, if_neg hpos] at heffect
    obtain ⟨item, -, rfl⟩ := List.mem_map.mp heffect
    exact ⟨_, rfl⟩
  have heffects : cleanupEffects (log.directory.extend number more) id
      = cleanupEffects log.directory id := by
    rw [cleanupEffects, sealedFiles_extend, ← cleanupEffects]
  have hsealed : FileEffect.remove (sealName id) ∈ cleanupEffects log.directory id := by
    rw [cleanupEffects, if_neg hpos]
    have hmem := mem_sealedFiles hnumber (sealId?_sealName hlt)
    exact List.mem_map.mpr ⟨_, List.mem_filter.mpr ⟨hmem, by simp⟩, rfl⟩
  have hgone : ∀ name, ((cleanupEffects log.directory id).foldl after log.directory).number? name
      ≠ some number := by
    intro name hname
    rw [Directory.number?_foldl_after hremovals] at hname
    split at hname
    next => cases hname
    next hkept =>
      rw [h.eq_of_number? hname hnumber] at hkept
      exact hkept hsealed
  rw [cleanup, cleanup, heffects, ((h.extend _ _).run _).1, (h.run _).1,
    Directory.foldl_after_extend hremovals, Directory.extend_eq_self more hgone]

end

end Log

/-- An image is saved beside a file to which something was appended. -/
theorem ImageFile.save_extend {directory : Directory} (h : directory.Plain) {name : String}
    {number : Nat} (hname : directory.number? name = some number)
    (hne : name ≠ ImageFile.temporaryName) (more : Bytes) (image : Image) :
    ImageFile.save (directory.extend number more) image
      = ((ImageFile.save directory image).1,
          (ImageFile.save directory image).2.extend number more) := by
  obtain ⟨file, hfile, rfl⟩ := Option.map_eq_some_iff.mp hname
  have htemporary : directory.numberOf ImageFile.temporaryName ≠ file.number :=
    (h.numberOf_ne hfile hne).symm
  have hdraft (content : Bytes) : (directory.setContent ImageFile.temporaryName content).numberOf
      ImageFile.temporaryName ≠ file.number := by
    rw [Directory.numberOf_eq ((Directory.number?_setContent _ _ _).trans (if_pos rfl))]
    exact htemporary
  have hplain := h.extend file.number more
  unfold ImageFile.save
  split
  · have hfinal : (ImageFile.saveEffects image).foldl after (directory.extend file.number more)
        = ((ImageFile.saveEffects image).foldl after directory).extend file.number more := by
      simp only [ImageFile.saveEffects, ImageFile.draft, List.foldl_cons, List.foldl_nil, after,
        Directory.setContent_extend _ _ htemporary, Directory.setContent_extend _ _ (hdraft _),
        Directory.move_extend]
    rw [(hplain.run _).1, (h.run _).1, hfinal]
  · have hfinal : [ImageFile.draft image].foldl after (directory.extend file.number more)
        = ([ImageFile.draft image].foldl after directory).extend file.number more :=
      Directory.setContent_extend _ _ htemporary
    simp only [(hplain.run _).1, (h.run _).1, hfinal]

/-- What an image that was saved leaves as it was. -/
theorem ImageFile.plain_of_save {directory saved : Directory} (h : directory.Plain) {image : Image}
    (hsave : ImageFile.save directory image = (.ok (), saved)) {name : String}
    (htemporary : name ≠ ImageFile.temporaryName) (hfinal : name ≠ ImageFile.fileName) :
    saved.Plain ∧ saved.number? name = directory.number? name := by
  unfold ImageFile.save at hsave
  split at hsave
  · rw [(h.run _).1] at hsave
    obtain rfl := congrArg Prod.snd hsave
    exact ⟨(h.run _).2, number?_saved directory image htemporary hfinal⟩
  · simp only [(h.run _).1] at hsave
    cases hsave

namespace Checkpoint

variable {checkpoint : Checkpoint} {floor : Nat} {image : Option Image}
  {segments : List (Nat × List Batch)} {batches : List Batch}

/-- The stored state with more bytes at the end of its open log file. -/
def fray (checkpoint : Checkpoint) (more : Bytes) : Checkpoint :=
  { checkpoint with log := checkpoint.log.fray more }

theorem resetLog_fray (h : checkpoint.log.Open floor image segments batches) (more : Bytes) :
    (checkpoint.fray more).resetLog = checkpoint.resetLog := by
  have hreset : (checkpoint.fray more).log.reset = checkpoint.log.reset := h.reset_fray more
  rw [resetLog, resetLog, hreset]
  rfl

theorem reset_fray (h : checkpoint.log.Open floor image segments batches) (more : Bytes) :
    (checkpoint.fray more).reset = checkpoint.reset := by
  obtain ⟨bare, hrun, hbare⟩ := h.removeImage
  have hremovals : ∀ effect ∈ removeImageEffects checkpoint.log.directory,
      ∃ name, effect = .remove name := by
    intro effect heffect
    rw [removeImageEffects] at heffect
    split at heffect
    next => exact ⟨_, List.mem_singleton.mp heffect⟩
    next => cases heffect
  have heffects : removeImageEffects (checkpoint.fray more).directory
      = removeImageEffects checkpoint.log.directory := by
    rw [removeImageEffects, removeImageEffects, fray, directory, Log.fray, Directory.has_extend]
  have hfrayed : (checkpoint.fray more).directory.run
      (removeImageEffects checkpoint.log.directory)
        = (.ok (), bare.extend checkpoint.log.handle more) := by
    have hplain : (checkpoint.fray more).directory.Plain := h.laid.plain.extend _ _
    have hfinal : (removeImageEffects checkpoint.log.directory).foldl after
        (checkpoint.fray more).directory = _ :=
      Directory.foldl_after_extend hremovals checkpoint.log.handle more
    rw [(h.laid.plain.run _).1] at hrun
    have hbared : (removeImageEffects checkpoint.log.directory).foldl after
        checkpoint.log.directory = bare := congrArg Prod.snd hrun
    rw [(hplain.run _).1, hfinal, hbared]
  have hopen : (checkpoint.withDirectory bare).log.Open floor none segments batches := hbare
  rw [reset, reset, heffects, hfrayed, directory, hrun]
  exact resetLog_fray hopen more

/-- Once a new image is written, nothing is left of the bytes. -/
theorem writeSnapshot_fray (h : checkpoint.log.Open floor image segments batches) {now : Nat}
    (hlt : checkpoint.log.nextSeal now < 2 ^ 64) (more : Bytes) {snapshot : Snapshot}
    {later : Checkpoint}
    (hwrite : (checkpoint.fray more).writeSnapshot snapshot now = (.ok (), later)) :
    checkpoint.writeSnapshot snapshot now = (.ok (), later) := by
  obtain ⟨sealed, hsealAt, hfrayed, hnumber⟩ := h.sealAt_fray hlt more
  let id := checkpoint.log.nextSeal now
  have hpos : id ≠ 0 := by
    have hle : checkpoint.log.lastSeal + 1 ≤ id := Nat.le_max_right _ _
    omega
  have hplain : sealed.directory.Plain := by
    have hsealed := congrArg (fun result => result.2.directory) hsealAt
    rw [Log.sealAt, (h.laid.plain.run _).1] at hsealed
    rw [← hsealed]
    exact (h.laid.plain.run _).2
  have htemporary : Log.sealName id ≠ ImageFile.temporaryName :=
    (sealName_ne hlt Log.sealId?_temporaryName).symm
  have hsave := ImageFile.save_extend hplain hnumber htemporary more
    (checkpoint.imageOf snapshot id)
  have hlog : (checkpoint.fray more).log.sealAt now = _ := hfrayed
  have himage : (checkpoint.fray more).imageOf snapshot id = checkpoint.imageOf snapshot id := rfl
  rw [writeSnapshot, hlog] at hwrite
  dsimp only at hwrite
  rw [himage, hsave] at hwrite
  rw [writeSnapshot, hsealAt]
  dsimp only
  cases hresult : ImageFile.save sealed.directory (checkpoint.imageOf snapshot id) with
  | mk result saved =>
      rw [hresult] at hwrite
      cases result with
      | error e => cases hwrite
      | ok done =>
          obtain ⟨hsaved, hkept⟩ := ImageFile.plain_of_save hplain hresult htemporary
            (sealName_ne hlt Log.sealId?_imageName).symm
          have hcleanup := Log.cleanup_extend { sealed with directory := saved } hsaved hpos hlt
            (hkept.trans hnumber) more
          dsimp only at hwrite
          rw [hcleanup] at hwrite
          exact hwrite

end Checkpoint

/-! ## Opening and recovering -/

namespace Log

variable {log : Log} {floor : Nat} {image : Option Image} {segments : List (Nat × List Batch)}
  {batches : List Batch}

theorem Open.content?_fray (h : log.Open floor image segments batches) (more : Bytes)
    (name : String) : (log.fray more).directory.content? name
      = if name = fileName then some (fileOf batches ++ more)
        else log.directory.content? name := by
  have hcurrent : log.directory.content? fileName = some (fileOf batches) := h.laid.current
  have hcontent := Directory.content?_extend h.laid.plain hcurrent more name
  rwa [Directory.numberOf_eq h.number] at hcontent

theorem Open.load_fray (h : log.Open floor image segments batches) (more : Bytes) :
    ImageFile.load (log.fray more).directory = .ok image := by
  have hplain : (log.fray more).directory.Plain := h.laid.plain.extend _ _
  have hload := h.laid.load
  rw [load_of_plain h.laid.plain] at hload
  rw [load_of_plain hplain, h.content?_fray, if_neg (by decide), hload]

/-- A torn frame is not in the way when the log is opened again. -/
theorem Open.openIn_fray (h : log.Open floor image segments batches) {more : Bytes} {next : Nat}
    (hseals : SealsEnd (log.fray more).directory next) :
    ∃ clean : Log, Log.openIn (log.fray more).directory = .ok (clean.fray more) ∧
      clean.Open next image segments batches := by
  have hhandle : log.directory.numberOf fileName = log.handle := Directory.numberOf_eq h.number
  have hsealed := hseals.sealed
  rw [fray, sealedFiles_extend, h.laid.sealedFiles_eq] at hsealed
  refine ⟨.ofDirectory log.directory 0, ?_, h.laid, ?_, fun segment hsegment => ?_,
    fun saved hsaved => ?_⟩
  · have hcontent := h.content?_fray more fileName
    rw [if_pos rfl] at hcontent
    have hheader := (header_prefix_fileOf batches).trans (List.prefix_append _ more)
    rw [openIn_of_header hcontent hheader]
    simp only [ofDirectory, fray, Directory.numberOf_extend, hhandle]
  · exact Directory.number?_of_content? h.laid.current
  · exact (hsealed _ (List.mem_map_of_mem hsegment)).trans (Nat.le_max_left _ _)
  · have hload := h.load_fray more
    rw [hsaved] at hload
    exact (hseals.image saved hload).trans (Nat.le_max_left _ _)

end Log

namespace Checkpoint

variable {checkpoint : Checkpoint} {floor : Nat} {image : Option Image}
  {segments : List (Nat × List Batch)} {batches : List Batch}

theorem recover_fray_of_none (h : checkpoint.log.Open floor none segments batches) (more : Bytes)
    (tail : Position) :
    (checkpoint.fray more).recover tail = (.ok none, checkpoint.resetLog.2) := by
  have hload : ImageFile.load (checkpoint.fray more).directory = .ok none := h.load_fray more
  have hplain : (checkpoint.fray more).directory.Plain := h.laid.plain.extend _ _
  rw [recover_of_load_none hplain hload, resetLog_fray h]

/-- A torn frame is dropped, and everything before it is recovered. -/
theorem recovers_torn (h : checkpoint.log.Open floor image segments batches) {past : History}
    (htells : Session.Tells checkpoint.signature checkpoint.feedEpoch
      ⟨image, segments, some batches⟩ (some past))
    {batch : Batch} (hframed : Log.Framed batch) {cut : Nat}
    (hcut : cut < (Log.frame batch).length) (tail : Position) :
    (checkpoint.fray ((Log.frame batch).take cut)).Recovers tail past
      (if cut < 8 then 0 else 1) := by
  obtain ⟨saved, himage, hsignature, hepoch, hstands⟩ := htells
  have hfits : (checkpoint.fray ((Log.frame batch).take cut)).fits saved = true := by
    simp [fray, Checkpoint.fits, hsignature, hepoch]
  have hheld : (checkpoint.log.directory.content? Log.fileName).isSome = true := by
    rw [h.laid.current]
    rfl
  have hframes := h.laid.framed_current batches rfl
  have hfiles : Layout.files ⟨image, segments, some batches⟩ saved.sealId
      = _ ++ (Log.fileName, batches) :: [] := rfl
  refine recovers_altered h.laid himage hfits (h.laid.plain.extend _ _) hheld
    (h.content?_fray _) hfiles (Log.readFile_torn hframes hframed hcut) hstands ?_ tail
  rw [← Layout.flatMap_files, Layout.files]
  simp

end Checkpoint

end ViewIndex.Storage
