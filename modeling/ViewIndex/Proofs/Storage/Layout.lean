import Mathlib.Algebra.GroupWithZero.Nat
import Mathlib.Data.List.Nodup
import ViewIndex.Proofs.Storage.Directory
import ViewIndex.Proofs.Storage.Frames
import ViewIndex.Storage.Checkpoint

/-!
# The layout of a stored view

A stored view is an image, log files that were sealed under rising numbers, and the log file that is
open. What is done to one of these files leaves the others alone, and what is read back is what was
laid out.
-/

namespace ViewIndex

namespace Text

theorem hexValue?_hexDigit {n : Nat} (h : n < 16) : hexValue? (hexDigit n) = some n := by
  have hall : ∀ m < 16, hexValue? (hexDigit m) = some m := by decide
  exact hall n h

theorem hexNumber?_append (width n start : Nat) (rest : List Char) :
    hexNumber? (hexDigits width n ++ rest) start
      = hexNumber? rest (start * 16 ^ width + n % 16 ^ width) := by
  induction width generalizing n rest with
  | zero => simp [hexDigits, Nat.mod_one]
  | succ width ih =>
      -- The digits are written from the last to the first, but read from the first to the last.
      have hdigit := hexValue?_hexDigit (Nat.mod_lt n (by decide : 0 < 16))
      rw [hexDigits, List.append_assoc, ih, List.singleton_append, hexNumber?, hdigit,
        Option.bind_some]
      congr 1
      rw [Nat.pow_succ, Nat.mul_comm (16 ^ width) 16, Nat.mod_mul]
      rw [Nat.mul_add, ← Nat.mul_assoc, ← Nat.mul_assoc, Nat.mul_comm 16 start]
      omega

theorem length_hexDigits (width n : Nat) : (hexDigits width n).length = width := by
  induction width generalizing n with
  | zero => rfl
  | succ width ih => simp [hexDigits, ih]

/-- The first digit is no plus sign. -/
theorem hexDigits_ne_plus (width n : Nat) (rest : List Char) : hexDigits width n ≠ '+' :: rest := by
  have hdigit : ∀ m < 16, hexDigit m ≠ '+' := by decide
  intro h
  have hmem : '+' ∈ hexDigits width n := by
    rw [h]
    exact List.mem_cons_self
  clear h
  induction width generalizing n with
  | zero => cases hmem
  | succ width ih =>
      rcases List.mem_append.mp hmem with hmem | hmem
      · exact ih _ hmem
      · exact hdigit _ (Nat.mod_lt n (by decide)) (List.mem_singleton.mp hmem).symm

end Text

namespace Storage.Log

theorem sealId?_sealName {id : Nat} (h : id < 2 ^ 64) : sealId? (sealName id) = some id := by
  have hname : (sealName id).toList = sealPrefix.toList ++ Text.hexDigits 16 id := by
    simp [sealName, Text.hexFixed]
  have hdrop : (sealName id).toList.drop sealPrefix.length = Text.hexDigits 16 id := by
    rw [hname, ← String.length_toList, List.drop_left]
  have hprefix : sealPrefix.toList.isPrefixOf (sealName id).toList = true := by
    rw [hname, List.isPrefixOf_iff_prefix]
    exact List.prefix_append _ _
  have hnumber : Text.hexNumber? (Text.hexDigits 16 id) 0 = some id := by
    have happend := Text.hexNumber?_append 16 id 0 []
    rw [List.append_nil, Nat.mod_eq_of_lt (by simpa using h)] at happend
    rw [happend, Nat.zero_mul, Nat.zero_add, Text.hexNumber?]
  have hsome : (Text.hexDigits 16 id).isEmpty = false := by
    rw [List.isEmpty_eq_false_iff, ne_eq, ← List.length_eq_zero_iff, Text.length_hexDigits]
    decide
  have hlt : id < UInt64.size := h
  have hplain : dropPlus (Text.hexDigits 16 id) = Text.hexDigits 16 id := by
    unfold dropPlus
    split
    next digits heq => exact absurd heq (Text.hexDigits_ne_plus 16 id digits)
    next => rfl
  rw [sealId?, hdrop, hprefix, hplain]
  dsimp only
  rw [hsome, hnumber]
  dsimp only [Option.bind_eq_bind, Option.bind_some]
  rw [guard_eq_some hlt]
  rfl

theorem sealId?_fileName : sealId? fileName = none := by decide

theorem sealId?_imageName : sealId? ImageFile.fileName = none := by decide

theorem sealId?_temporaryName : sealId? ImageFile.temporaryName = none := by decide

end Storage.Log

namespace Storage

/-- What the files of a stored view hold. -/
structure Layout where
  image : Option Image
  /-- The numbers of the sealed log files with their batches. -/
  sealed : List (Nat × List Batch)
  /-- The batches of the current log file, if there is one. -/
  current : Option (List Batch)

/-- The batches that are not in an image with this seal, in the order in which they were logged. -/
def Layout.pending (layout : Layout) (after : Nat) : List Batch :=
  (layout.sealed.filter fun segment => after < segment.1).flatMap Prod.snd
    ++ layout.current.getD []

/-- The files that an image with this seal lacks, in the order in which they are read. -/
def Layout.files (layout : Layout) (after : Nat) : List (String × List Batch) :=
  (layout.sealed.filter fun segment => after < segment.1).map
      (fun segment => (Log.sealName segment.1, segment.2))
    ++ [(Log.fileName, layout.current.getD [])]

theorem Layout.flatMap_files (layout : Layout) (after : Nat) :
    (layout.files after).flatMap Prod.snd = layout.pending after := by
  simp [Layout.files, Layout.pending, List.flatMap_map]

theorem Layout.pending_eq_nil {layout : Layout} {id : Nat}
    (hsealed : ∀ segment ∈ layout.sealed, segment.1 ≤ id) (hcurrent : layout.current = some []) :
    layout.pending id = [] := by
  have hnone : layout.sealed.filter (fun segment => id < segment.1) = [] := by
    rw [List.filter_eq_nil_iff]
    intro segment hsegment
    simpa using hsealed segment hsegment
  rw [Layout.pending, hnone, hcurrent]
  rfl

/-- For an image with an earlier seal, the batches are still there after the file was put aside. -/
theorem Layout.pending_setAside {image : Option Image} {segments : List (Nat × List Batch)}
    {batches : List Batch} {id next : Nat} (h : id < next) {current : Option (List Batch)}
    (hcurrent : current.getD [] = []) :
    Layout.pending ⟨image, segments ++ [(next, batches)], current⟩ id
      = Layout.pending ⟨image, segments, some batches⟩ id := by
  simp [Layout.pending, hcurrent, h]

/-- A directory has these files and, apart from an image that is being written, no others. -/
structure Laid (directory : Directory) (layout : Layout) : Prop where
  plain : directory.Plain
  image : directory.content? ImageFile.fileName = layout.image.map ImageFile.encode
  fitting : ∀ image, layout.image = some image → ImageFile.Fitting image
  sealed : ∀ name id content, Log.sealId? name = some id →
    (directory.content? name = some content ↔ ∃ batches, (id, batches) ∈ layout.sealed ∧
      name = Log.sealName id ∧ content = Log.fileOf batches)
  ascending : layout.sealed.Pairwise fun a b => a.1 < b.1
  id_lt : ∀ segment ∈ layout.sealed, segment.1 < 2 ^ 64
  current : directory.content? Log.fileName = layout.current.map Log.fileOf
  framed_sealed : ∀ segment ∈ layout.sealed, ∀ batch ∈ segment.2, Log.Framed batch
  framed_current : ∀ batches, layout.current = some batches → ∀ batch ∈ batches, Log.Framed batch

theorem laid_empty : Laid {} ⟨none, [], none⟩ where
  plain := Directory.plain_empty
  image := by simp [Directory.content?]
  fitting image himage := by cases himage
  sealed name id content _ := by simp [Directory.content?]
  ascending := List.Pairwise.nil
  id_lt segment hsegment := by cases hsegment
  current := by simp [Directory.content?]
  framed_sealed segment hsegment := by cases hsegment
  framed_current batches hbatches := by cases hbatches

section Laid

variable {directory next : Directory} {layout : Layout}

/-- Sealed files are left alone by what is done to files of other names. -/
theorem Laid.of_content (h : Laid directory layout) (hplain : next.Plain) {image : Option Image}
    (himage : next.content? ImageFile.fileName = image.map ImageFile.encode)
    (hfitting : ∀ i, image = some i → ImageFile.Fitting i) {current : Option (List Batch)}
    (hcurrent : next.content? Log.fileName = current.map Log.fileOf)
    (hframed : ∀ batches, current = some batches → ∀ batch ∈ batches, Log.Framed batch)
    (hsealed : ∀ name, Log.sealId? name ≠ none → next.content? name = directory.content? name) :
    Laid next ⟨image, layout.sealed, current⟩ where
  plain := hplain
  image := himage
  fitting := hfitting
  sealed name id content hid := by
    rw [hsealed name (by simp [hid])]
    exact h.sealed name id content hid
  ascending := h.ascending
  id_lt := h.id_lt
  current := hcurrent
  framed_sealed := h.framed_sealed
  framed_current := hframed

theorem ne_of_sealId? {name other : String} (h : Log.sealId? name ≠ none)
    (hother : Log.sealId? other = none) : name ≠ other := by
  rintro rfl
  exact h hother

theorem Laid.create (h : Laid directory layout) :
    Laid (directory.setContent Log.fileName Log.header)
      ⟨layout.image, layout.sealed, some []⟩ := by
  apply h.of_content (h.plain.setContent _ _)
  · rw [Directory.content?_setContent, if_neg (by decide)]
    exact h.image
  · exact h.fitting
  · rw [Directory.content?_setContent, if_pos rfl]
    simp [Log.fileOf]
  · intro batches hbatches
    cases hbatches
    simp
  · intro name hname
    rw [Directory.content?_setContent, if_neg (ne_of_sealId? hname Log.sealId?_fileName)]

theorem Laid.append (h : Laid directory layout) {batches : List Batch}
    (hcurrent : layout.current = some batches) {batch : Batch} (hframed : Log.Framed batch) :
    Laid (directory.extend (directory.numberOf Log.fileName) (Log.frame batch))
      ⟨layout.image, layout.sealed, some (batches ++ [batch])⟩ := by
  have hfile : directory.content? Log.fileName = some (Log.fileOf batches) := by
    rw [h.current, hcurrent, Option.map_some]
  have hcontent := Directory.content?_extend h.plain hfile (Log.frame batch)
  apply h.of_content (h.plain.extend _ _)
  · rw [hcontent, if_neg (by decide)]
    exact h.image
  · exact h.fitting
  · rw [hcontent, if_pos rfl, ← Log.fileOf_append, Option.map_some]
  · intro later hlater
    cases hlater
    intro other hother
    rcases List.mem_append.mp hother with hother | hother
    · exact h.framed_current batches hcurrent other hother
    · rwa [List.mem_singleton.mp hother]
  · intro name hname
    rw [hcontent, if_neg (ne_of_sealId? hname Log.sealId?_fileName)]

/-- An image that is being written is in nobody's way. -/
theorem Laid.draft (h : Laid directory layout) (content : Bytes) :
    Laid (directory.setContent ImageFile.temporaryName content) layout := by
  apply h.of_content (h.plain.setContent _ _)
  · rw [Directory.content?_setContent, if_neg (by decide)]
    exact h.image
  · exact h.fitting
  · rw [Directory.content?_setContent, if_neg (by decide)]
    exact h.current
  · exact h.framed_current
  · intro name hname
    rw [Directory.content?_setContent, if_neg (ne_of_sealId? hname Log.sealId?_temporaryName)]

theorem Laid.install (h : Laid directory layout) {image : Image}
    (hfitting : ImageFile.Fitting image)
    (hdraft : directory.content? ImageFile.temporaryName = some (ImageFile.encode image)) :
    Laid (directory.move ImageFile.temporaryName ImageFile.fileName)
      ⟨some image, layout.sealed, layout.current⟩ := by
  have hcontent := Directory.content?_move hdraft ImageFile.fileName
  apply h.of_content (h.plain.move _ _)
  · rw [hcontent, if_pos rfl, Option.map_some]
  · rintro _ ⟨⟩
    exact hfitting
  · rw [hcontent, if_neg (by decide), if_neg (by decide)]
    exact h.current
  · exact h.framed_current
  · intro name hname
    rw [hcontent, if_neg (ne_of_sealId? hname Log.sealId?_imageName),
      if_neg (ne_of_sealId? hname Log.sealId?_temporaryName)]

theorem Laid.removeImage (h : Laid directory layout) :
    Laid (directory.erase ImageFile.fileName) ⟨none, layout.sealed, layout.current⟩ := by
  apply h.of_content (h.plain.erase _)
  · rw [Directory.content?_erase, if_pos rfl]
    rfl
  · rintro _ ⟨⟩
  · rw [Directory.content?_erase, if_neg (by decide)]
    exact h.current
  · exact h.framed_current
  · intro name hname
    rw [Directory.content?_erase, if_neg (ne_of_sealId? hname Log.sealId?_imageName)]

theorem sealName_ne {id : Nat} (hid : id < 2 ^ 64) {name : String}
    (hname : Log.sealId? name = none) : name ≠ Log.sealName id := by
  rintro rfl
  rw [Log.sealId?_sealName hid] at hname
  cases hname

/-- The file that is put aside is one more sealed file. -/
theorem Laid.content?_setAside (h : Laid directory layout) {batches : List Batch}
    (hcurrent : layout.current = some batches) {id : Nat} (hid : id < 2 ^ 64)
    (habove : ∀ segment ∈ layout.sealed, segment.1 < id) {name : String} {other : Nat}
    (hother : Log.sealId? name = some other) (content : Bytes) :
    (directory.move Log.fileName (Log.sealName id)).content? name = some content ↔
      ∃ others, (other, others) ∈ layout.sealed ++ [(id, batches)] ∧
        name = Log.sealName other ∧ content = Log.fileOf others := by
  have hfile : directory.content? Log.fileName = some (Log.fileOf batches) := by
    rw [h.current, hcurrent, Option.map_some]
  rw [Directory.content?_move hfile (Log.sealName id)]
  simp only [List.mem_append, List.mem_singleton, Prod.mk.injEq]
  by_cases hname : name = Log.sealName id
  · -- No other file has the new number.
    subst hname
    rw [Log.sealId?_sealName hid] at hother
    obtain rfl := Option.some.inj hother
    rw [if_pos rfl, Option.some.injEq]
    constructor
    · rintro rfl
      exact ⟨batches, .inr ⟨rfl, rfl⟩, rfl, rfl⟩
    · rintro ⟨others, hmem | ⟨-, rfl⟩, -, rfl⟩
      · exact absurd (habove _ hmem) (Nat.lt_irrefl id)
      · rfl
  · rw [if_neg hname, if_neg (ne_of_sealId? (by simp [hother]) Log.sealId?_fileName),
      h.sealed name other content hother]
    constructor
    · rintro ⟨others, hmem, hrest⟩
      exact ⟨others, .inl hmem, hrest⟩
    · rintro ⟨others, hmem | ⟨rfl, -⟩, hother, hrest⟩
      · exact ⟨others, hmem, hother, hrest⟩
      · exact absurd hother hname

/-- The current file is put aside under a number above all others. -/
theorem Laid.setAside (h : Laid directory layout) {batches : List Batch}
    (hcurrent : layout.current = some batches) {id : Nat} (hid : id < 2 ^ 64)
    (habove : ∀ segment ∈ layout.sealed, segment.1 < id) :
    Laid (directory.move Log.fileName (Log.sealName id))
      ⟨layout.image, layout.sealed ++ [(id, batches)], none⟩ := by
  have hfile : directory.content? Log.fileName = some (Log.fileOf batches) := by
    rw [h.current, hcurrent, Option.map_some]
  have hcontent := Directory.content?_move hfile (Log.sealName id)
  exact {
    plain := h.plain.move _ _
    image := by
      rw [hcontent, if_neg (sealName_ne hid Log.sealId?_imageName), if_neg (by decide)]
      exact h.image
    fitting := h.fitting
    sealed := fun _ _ content hother => h.content?_setAside hcurrent hid habove hother content
    ascending := by
      rw [List.pairwise_append]
      refine ⟨h.ascending, List.pairwise_singleton _ _, fun segment hsegment later hlater => ?_⟩
      rw [List.mem_singleton.mp hlater]
      exact habove segment hsegment
    id_lt := by
      intro segment hsegment
      rcases List.mem_append.mp hsegment with hsegment | hsegment
      · exact h.id_lt segment hsegment
      · rwa [List.mem_singleton.mp hsegment]
    current := by
      rw [hcontent, if_neg (sealName_ne hid Log.sealId?_fileName), if_pos rfl]
      rfl
    framed_sealed := by
      intro segment hsegment
      rcases List.mem_append.mp hsegment with hsegment | hsegment
      · exact h.framed_sealed segment hsegment
      · rw [List.mem_singleton.mp hsegment]
        exact h.framed_current batches hcurrent
    framed_current := by rintro _ ⟨⟩ }

/-- One sealed file is removed. -/
theorem Laid.removeSealed (h : Laid directory layout) {id : Nat} (hid : id < 2 ^ 64) :
    Laid (directory.erase (Log.sealName id))
      ⟨layout.image, layout.sealed.filter fun segment => segment.1 ≠ id, layout.current⟩ where
  plain := h.plain.erase _
  image := by
    rw [Directory.content?_erase, if_neg (sealName_ne hid Log.sealId?_imageName)]
    exact h.image
  fitting := h.fitting
  sealed name other content hother := by
    rw [Directory.content?_erase]
    simp only [List.mem_filter, decide_eq_true_eq]
    by_cases hname : name = Log.sealName id
    · subst hname
      rw [Log.sealId?_sealName hid] at hother
      obtain rfl := Option.some.inj hother
      simp
    · rw [if_neg hname, h.sealed name other content hother]
      constructor
      · rintro ⟨batches, hmem, hnamed, hrest⟩
        refine ⟨batches, ⟨hmem, ?_⟩, hnamed, hrest⟩
        rintro rfl
        exact hname hnamed
      · rintro ⟨batches, ⟨hmem, -⟩, hrest⟩
        exact ⟨batches, hmem, hrest⟩
  ascending := h.ascending.filter _
  id_lt segment hsegment := h.id_lt segment (List.mem_of_mem_filter hsegment)
  current := by
    rw [Directory.content?_erase, if_neg (sealName_ne hid Log.sealId?_fileName)]
    exact h.current
  framed_sealed segment hsegment := h.framed_sealed segment (List.mem_of_mem_filter hsegment)
  framed_current := h.framed_current

/-! ## What is found in the files -/

theorem Laid.mem_sealedFiles_iff (h : Laid directory layout) (item : Nat × String) :
    item ∈ Log.sealedFiles directory ↔
      ∃ segment ∈ layout.sealed, item = (segment.1, Log.sealName segment.1) := by
  obtain ⟨id, name⟩ := item
  simp only [Log.sealedFiles, List.mem_mergeSort, List.mem_filterMap, Option.map_eq_some_iff,
    Prod.mk.injEq, Std.ExtTreeMap.mem_keys]
  constructor
  · rintro ⟨_, hmem, _, hid, rfl, rfl⟩
    rw [Std.ExtTreeMap.mem_iff_isSome_getElem?, Option.isSome_iff_exists] at hmem
    obtain ⟨file, hfile⟩ := hmem
    have hcontent := congrArg (Option.map StoredFile.content) hfile
    obtain ⟨batches, hsegment, hname, -⟩ := (h.sealed _ _ _ hid).mp hcontent
    exact ⟨_, hsegment, rfl, hname⟩
  · rintro ⟨segment, hsegment, rfl, rfl⟩
    have hid := Log.sealId?_sealName (h.id_lt segment hsegment)
    have hcontent := (h.sealed _ _ _ hid).mpr ⟨segment.2, hsegment, rfl, rfl⟩
    obtain ⟨file, hfile, -⟩ := Option.map_eq_some_iff.mp hcontent
    refine ⟨_, ?_, _, hid, rfl, rfl⟩
    rw [Std.ExtTreeMap.mem_iff_isSome_getElem?, hfile]
    rfl

/-- The sealed files are found in ascending order. -/
theorem Laid.sealedFiles_eq (h : Laid directory layout) : Log.sealedFiles directory
    = layout.sealed.map fun segment => (segment.1, Log.sealName segment.1) := by
  apply mergeSort_eq_of_ascending
  · exact List.pairwise_map.mpr h.ascending
  · apply List.Nodup.filterMap _ Std.ExtTreeMap.nodup_keys
    intro a b item ha hb
    simp only [Option.mem_def, Option.map_eq_some_iff] at ha hb
    obtain ⟨_, -, rfl⟩ := ha
    obtain ⟨_, -, hb⟩ := hb
    exact (Prod.mk.inj hb).2.symm
  · intro item
    have hmem := h.mem_sealedFiles_iff item
    rw [Log.sealedFiles, List.mem_mergeSort] at hmem
    rw [hmem, List.mem_map]
    simp only [eq_comm]

theorem Laid.readFile_sealed (h : Laid directory layout) {segment : Nat × List Batch}
    (hsegment : segment ∈ layout.sealed) :
    Log.readFile ((directory.content? (Log.sealName segment.1)).getD []) = ⟨segment.2, 0⟩ := by
  have hid := Log.sealId?_sealName (h.id_lt segment hsegment)
  have hcontent := (h.sealed _ _ _ hid).mpr ⟨segment.2, hsegment, rfl, rfl⟩
  rw [hcontent, Option.getD_some, Log.readFile_fileOf (h.framed_sealed segment hsegment)]

theorem Laid.readFile_current (h : Laid directory layout) :
    Log.readFile ((directory.content? Log.fileName).getD []) = ⟨layout.current.getD [], 0⟩ := by
  rw [h.current]
  cases hcurrent : layout.current with
  | none => rfl
  | some batches => exact Log.readFile_fileOf (h.framed_current batches hcurrent)

/-- What is read from one file comes behind what is read from those before it. -/
theorem foldl_append (files : List Log.Contents) (start : Log.Contents) :
    files.foldl Log.Contents.append start
      = ⟨start.batches ++ files.flatMap Log.Contents.batches,
          start.truncated + (files.map Log.Contents.truncated).sum⟩ := by
  induction files generalizing start with
  | nil => simp
  | cons file rest ih => simp [Log.Contents.append, ih, Nat.add_assoc]

theorem replay_of_files (log : Log) {after : Nat} {files : List (String × Log.Contents)}
    (hnames : ((Log.sealedFiles log.directory).filter fun item => after < item.1).map Prod.snd
      ++ [Log.fileName] = files.map Prod.fst)
    (hread : ∀ file ∈ files,
      Log.readFile ((log.directory.content? file.1).getD []) = file.2) :
    (log.replay after).batches = files.flatMap (fun file => file.2.batches) ∧
      (log.replay after).truncated = (files.map fun file => file.2.truncated).sum := by
  have hcontents : (files.map Prod.fst).map
      (fun name => Log.readFile ((log.directory.content? name).getD [])) = files.map Prod.snd := by
    rw [List.map_map]
    exact List.map_congr_left hread
  unfold Log.replay
  dsimp only
  rw [hnames, hcontents, foldl_append]
  simp [List.flatMap_map, Function.comp_def]

/-- The names of the files that are read. -/
theorem Laid.names_eq (h : Laid directory layout) (after : Nat) :
    ((Log.sealedFiles directory).filter fun item => after < item.1).map Prod.snd ++ [Log.fileName]
      = (layout.files after).map Prod.fst := by
  rw [h.sealedFiles_eq, List.filter_map, Layout.files, List.map_append, List.map_map, List.map_map]
  rfl

theorem Laid.readFile_files (h : Laid directory layout) (after : Nat) {file : String × List Batch}
    (hfile : file ∈ layout.files after) :
    Log.readFile ((directory.content? file.1).getD []) = ⟨file.2, 0⟩ := by
  rcases List.mem_append.mp hfile with hsealed | hcurrent
  · obtain ⟨segment, hsegment, rfl⟩ := List.mem_map.mp hsealed
    exact h.readFile_sealed (List.mem_of_mem_filter hsegment)
  · rw [List.mem_singleton.mp hcurrent]
    exact h.readFile_current

/-- A file with batches is there, and they can be read back. -/
theorem Laid.content?_files (h : Laid directory layout) {after : Nat} {file : String × List Batch}
    (hfile : file ∈ layout.files after) (hsome : file.2 ≠ []) :
    directory.content? file.1 = some (Log.fileOf file.2) ∧
      ∀ batch ∈ file.2, Log.Framed batch := by
  rcases List.mem_append.mp hfile with hsealed | hcurrent
  · obtain ⟨segment, hsegment, rfl⟩ := List.mem_map.mp hsealed
    have hmem := List.mem_of_mem_filter hsegment
    have hid := Log.sealId?_sealName (h.id_lt segment hmem)
    exact ⟨(h.sealed _ _ _ hid).mpr ⟨segment.2, hmem, rfl, rfl⟩, h.framed_sealed segment hmem⟩
  · obtain rfl := List.mem_singleton.mp hcurrent
    cases hbatches : layout.current with
    | none => exact absurd (by rw [hbatches]; rfl) hsome
    | some batches =>
        refine ⟨?_, h.framed_current batches hbatches⟩
        rw [h.current, hbatches]
        rfl

theorem Laid.imageName_ne (h : Laid directory layout) {after : Nat} {file : String × List Batch}
    (hfile : file ∈ layout.files after) : ImageFile.fileName ≠ file.1 := by
  rcases List.mem_append.mp hfile with hsealed | hcurrent
  · obtain ⟨segment, hsegment, rfl⟩ := List.mem_map.mp hsealed
    exact sealName_ne (h.id_lt segment (List.mem_of_mem_filter hsegment)) Log.sealId?_imageName
  · rw [List.mem_singleton.mp hcurrent]
    exact (show ImageFile.fileName ≠ Log.fileName by decide)

theorem Laid.nodup_files (h : Laid directory layout) (after : Nat) :
    ((layout.files after).map Prod.fst).Nodup := by
  rw [Layout.files, List.map_append, List.map_map, List.nodup_append]
  refine ⟨List.pairwise_map.mpr ((h.ascending.filter _).imp_of_mem ?_), List.nodup_singleton _, ?_⟩
  · intro a b ha hb hlt hname
    have hid := Log.sealId?_sealName (h.id_lt a (List.mem_of_mem_filter ha))
    rw [show Log.sealName a.1 = Log.sealName b.1 from hname,
      Log.sealId?_sealName (h.id_lt b (List.mem_of_mem_filter hb))] at hid
    exact hlt.ne (Option.some.inj hid).symm
  · intro name hsealed other hother
    obtain ⟨segment, hsegment, rfl⟩ := List.mem_map.mp hsealed
    rw [List.mem_singleton.mp hother]
    exact (sealName_ne (h.id_lt segment (List.mem_of_mem_filter hsegment))
      Log.sealId?_fileName).symm

/-- If one of the files that are read has another content now, replaying finds what can be read of
it, and everything in the other files. -/
theorem Laid.replay_altered (h : Laid directory layout) (log : Log)
    (hkeys : log.directory.files.keys = directory.files.keys) {name : String}
    (hothers : ∀ other ≠ name, log.directory.content? other = directory.content? other)
    {after : Nat} {first last : List (String × List Batch)} {batches : List Batch}
    (hfiles : layout.files after = first ++ (name, batches) :: last) {found : Log.Contents}
    (hfound : Log.readFile ((log.directory.content? name).getD []) = found) :
    (log.replay after).batches
        = first.flatMap Prod.snd ++ found.batches ++ last.flatMap Prod.snd ∧
      (log.replay after).truncated = found.truncated := by
  let whole : String × List Batch → String × Log.Contents := fun file => (file.1, ⟨file.2, 0⟩)
  have hnames : ((Log.sealedFiles log.directory).filter fun item => after < item.1).map Prod.snd
      ++ [Log.fileName] = (first.map whole ++ (name, found) :: last.map whole).map Prod.fst := by
    have hsealed : Log.sealedFiles log.directory = Log.sealedFiles directory := by
      rw [Log.sealedFiles, hkeys, ← Log.sealedFiles]
    rw [hsealed, h.names_eq, hfiles]
    simp [whole, Function.comp_def]
  have hnodup := h.nodup_files after
  rw [hfiles, List.map_append, List.map_cons, List.nodup_middle, List.nodup_cons] at hnodup
  have hread : ∀ file ∈ first ++ last,
      Log.readFile ((log.directory.content? file.1).getD []) = ⟨file.2, 0⟩ := by
    intro file hfile
    have hne : file.1 ≠ name := by
      intro heq
      apply hnodup.1
      rw [← List.map_append, ← heq]
      exact List.mem_map.mpr ⟨file, hfile, rfl⟩
    rw [hothers file.1 hne]
    apply h.readFile_files after
    rw [hfiles]
    simpa using Or.imp_right Or.inr (List.mem_append.mp hfile)
  obtain ⟨hbatches, htruncated⟩ := replay_of_files log hnames (by
    intro file hfile
    rw [List.mem_append, List.mem_cons, List.mem_map, List.mem_map] at hfile
    rcases hfile with ⟨source, hsource, rfl⟩ | rfl | ⟨source, hsource, rfl⟩
    · exact hread source (List.mem_append_left _ hsource)
    · exact hfound
    · exact hread source (List.mem_append_right _ hsource))
  rw [hbatches, htruncated]
  simp [whole, List.flatMap_map, Function.comp_def]

/-- Replaying finds the batches that are pending, and no record is missing at the end of a file. -/
theorem Laid.replay (h : Laid directory layout) (handle lastSeal after : Nat) :
    ((Log.mk directory handle lastSeal).replay after).batches = layout.pending after ∧
      ((Log.mk directory handle lastSeal).replay after).truncated = 0 := by
  obtain ⟨hbatches, htruncated⟩ := h.replay_altered ⟨directory, handle, lastSeal⟩ rfl
    (fun _ _ => rfl) (show layout.files after = _ ++ _ :: [] from rfl) h.readFile_current
  rw [hbatches, htruncated, ← layout.flatMap_files after, Layout.files]
  simp

theorem load_of_plain (h : directory.Plain) : ImageFile.load directory
    = .ok ((directory.content? ImageFile.fileName).bind ImageFile.decode?) :=
  ImageFile.load_of_free (by simp [Directory.hasFolder, h.folders])

theorem Laid.load (h : Laid directory layout) : ImageFile.load directory = .ok layout.image := by
  rw [load_of_plain h.plain, h.image]
  cases himage : layout.image with
  | none => rfl
  | some image =>
      rw [Option.map_some, Option.bind_some, ImageFile.decode?_encode (h.fitting image himage)]

end Laid

end Storage
end ViewIndex
