import ViewIndex.Storage.Directory

/-!
# Plain directories

Nothing fails in a directory that has no directories in it. An effect on one file leaves the
contents of all others alone; that goes for appending too, which follows the number of a file,
because no two files have the same number.
-/

namespace ViewIndex.Directory

/-- There are only files, and they are told apart by their numbers. -/
structure Plain (directory : Directory) : Prop where
  folders : directory.folders = []
  number_lt : ∀ (name : String) (file : StoredFile), directory.files[name]? = some file →
    file.number < directory.created
  name_eq : ∀ (a b : String) (first second : StoredFile), directory.files[a]? = some first →
    directory.files[b]? = some second → first.number = second.number → a = b

/-- The number of a file that there is. -/
def number? (directory : Directory) (name : String) : Option Nat :=
  directory.files[name]?.map StoredFile.number

/-- What becomes of a plain directory by one effect. -/
def after (directory : Directory) : FileEffect → Directory
  | .write name content => directory.setContent name content
  | .append number more => directory.extend number more
  | .rename source target => directory.move source target
  | .remove name => directory.erase name

theorem plain_empty : Plain {} where
  folders := rfl
  number_lt name file h := by simp at h
  name_eq a b first second h := by simp at h

section

variable {directory : Directory}

theorem Plain.numberOf_ne (h : directory.Plain) {name other : String} {file : StoredFile}
    (hother : directory.files[other]? = some file) (hne : other ≠ name) :
    file.number ≠ directory.numberOf name := by
  intro hnumber
  unfold numberOf at hnumber
  cases hname : directory.files[name]? with
  | none =>
      rw [hname] at hnumber
      exact absurd hnumber (Nat.ne_of_lt (h.number_lt other file hother))
  | some held =>
      rw [hname] at hnumber
      exact hne (h.name_eq other name file held hother hname hnumber)

theorem Plain.setContent (h : directory.Plain) (name : String) (content : Bytes) :
    (directory.setContent name content).Plain where
  folders := h.folders
  number_lt other file hother := by
    simp only [Directory.setContent, Std.ExtTreeMap.getElem?_insert] at hother ⊢
    split at hother
    next =>
      obtain rfl := Option.some.inj hother
      exact Nat.lt_of_lt_of_le (Nat.lt_succ_self _) (Nat.le_max_right _ _)
    next => exact Nat.lt_of_lt_of_le (h.number_lt other file hother) (Nat.le_max_left _ _)
  name_eq a b first second ha hb hnumber := by
    simp only [Directory.setContent, Std.ExtTreeMap.getElem?_insert,
      Std.LawfulEqCmp.compare_eq_iff_eq] at ha hb
    -- A file that is created gets a number of its own, and one that exists keeps its number.
    by_cases hna : name = a <;> by_cases hnb : name = b
    · exact hna.symm.trans hnb
    · rw [if_pos hna] at ha
      rw [if_neg hnb] at hb
      obtain rfl := Option.some.inj ha
      exact absurd hnumber.symm (h.numberOf_ne hb (Ne.symm hnb))
    · rw [if_neg hna] at ha
      rw [if_pos hnb] at hb
      obtain rfl := Option.some.inj hb
      exact absurd hnumber (h.numberOf_ne ha (Ne.symm hna))
    · rw [if_neg hna] at ha
      rw [if_neg hnb] at hb
      exact h.name_eq a b first second ha hb hnumber

theorem Plain.extend (h : directory.Plain) (number : Nat) (more : Bytes) :
    (directory.extend number more).Plain where
  folders := h.folders
  number_lt name file hfile := by
    simp only [Directory.extend, Std.ExtTreeMap.getElem?_map, Option.map_eq_some_iff] at hfile
    obtain ⟨held, hheld, rfl⟩ := hfile
    have hlt := h.number_lt name held hheld
    split <;> exact hlt
  name_eq a b first second ha hb hnumber := by
    simp only [Directory.extend, Std.ExtTreeMap.getElem?_map, Option.map_eq_some_iff] at ha hb
    obtain ⟨heldA, ha, rfl⟩ := ha
    obtain ⟨heldB, hb, rfl⟩ := hb
    apply h.name_eq a b heldA heldB ha hb
    -- Appending changes no numbers.
    split at hnumber <;> split at hnumber <;> exact hnumber

theorem Plain.erase (h : directory.Plain) (name : String) : (directory.erase name).Plain where
  folders := h.folders
  number_lt other file hother := by
    simp only [Directory.erase, Std.ExtTreeMap.getElem?_erase] at hother ⊢
    split at hother
    next => cases hother
    next => exact h.number_lt other file hother
  name_eq a b first second ha hb hnumber := by
    simp only [Directory.erase, Std.ExtTreeMap.getElem?_erase] at ha hb
    split at ha
    next => cases ha
    next =>
      split at hb
      next => cases hb
      next => exact h.name_eq a b first second ha hb hnumber

/-- A file that is given another name is the one that bears it. -/
theorem getElem?_files_move {source : String} {file : StoredFile}
    (hsource : directory.files[source]? = some file) (target name : String) :
    (directory.move source target).files[name]? =
      if name = target then some file
      else if name = source then none else directory.files[name]? := by
  unfold move
  rw [hsource]
  simp only [Std.ExtTreeMap.getElem?_insert, Std.ExtTreeMap.getElem?_erase,
    Std.LawfulEqCmp.compare_eq_iff_eq, eq_comm (a := name)]

theorem move_eq_self (h : directory.Plain) {source : String}
    (hsource : directory.files[source]? = none) (target : String) :
    directory.move source target = directory := by
  have hfolders : directory.folders.replace source target = directory.folders := by
    rw [h.folders]
    rfl
  unfold move
  rw [hsource]
  simp [hfolders]

theorem Plain.move (h : directory.Plain) (source target : String) :
    (directory.move source target).Plain := by
  cases hsource : directory.files[source]? with
  | none => rwa [move_eq_self h hsource]
  | some moved =>
      have hfiles := getElem?_files_move hsource target
      have hcreated : (directory.move source target).created = directory.created := by
        unfold Directory.move
        rw [hsource]
      -- Every file after the move stood under some name before, none under two names.
      have hbefore : ∀ (name : String) (file : StoredFile),
          (directory.move source target).files[name]? = some file →
          directory.files[if name = target then source else name]? = some file ∧
            (name ≠ target → name ≠ source) := by
        intro name file hfile
        rw [hfiles] at hfile
        split at hfile
        next htarget => simp_all
        next htarget =>
          split at hfile
          next => cases hfile
          next hne => simp_all
      refine ⟨?_, ?_, ?_⟩
      · unfold Directory.move
        rw [hsource]
        exact h.folders
      · intro name file hfile
        rw [hcreated]
        exact h.number_lt _ file (hbefore name file hfile).1
      · intro a b first second ha hb hnumber
        obtain ⟨ha, hanot⟩ := hbefore a first ha
        obtain ⟨hb, hbnot⟩ := hbefore b second hb
        have hname := h.name_eq _ _ first second ha hb hnumber
        by_cases hta : a = target <;> by_cases htb : b = target <;> simp_all

/-- In a plain directory every effect takes place and leaves a plain directory. -/
theorem Plain.after (h : directory.Plain) (effect : FileEffect) :
    directory.apply effect = .ok (directory.after effect) ∧ (directory.after effect).Plain := by
  have hfolder : ∀ name, directory.hasFolder name = false := by
    intro name
    simp [hasFolder, h.folders]
  cases effect with
  | write name content => exact ⟨by simp [apply, hfolder, Directory.after], h.setContent _ _⟩
  | append number more => exact ⟨rfl, h.extend _ _⟩
  | rename source target => exact ⟨by simp [apply, hfolder, Directory.after], h.move _ _⟩
  | remove name => exact ⟨by simp [apply, hfolder, Directory.after], h.erase _⟩

theorem Plain.run (h : directory.Plain) (effects : List FileEffect) :
    directory.run effects = (.ok (), effects.foldl Directory.after directory) ∧
      (effects.foldl Directory.after directory).Plain := by
  induction effects generalizing directory with
  | nil => exact ⟨rfl, h⟩
  | cons effect rest ih =>
      obtain ⟨happly, hafter⟩ := h.after effect
      rw [Directory.run, happly]
      exact ih hafter

/-! ## Contents -/

theorem content?_setContent (name : String) (content : Bytes) (other : String) :
    (directory.setContent name content).content? other =
      if other = name then some content else directory.content? other := by
  simp only [content?, setContent, Std.ExtTreeMap.getElem?_insert,
    Std.LawfulEqCmp.compare_eq_iff_eq, eq_comm (a := name)]
  split <;> rfl

theorem content?_erase (name other : String) : (directory.erase name).content? other =
    if other = name then none else directory.content? other := by
  simp only [content?, erase, Std.ExtTreeMap.getElem?_erase,
    Std.LawfulEqCmp.compare_eq_iff_eq, eq_comm (a := name)]
  split <;> rfl

theorem content?_move {source : String} {content : Bytes}
    (hsource : directory.content? source = some content) (target other : String) :
    (directory.move source target).content? other =
      if other = target then some content
      else if other = source then none else directory.content? other := by
  obtain ⟨file, hfile, rfl⟩ := Option.map_eq_some_iff.mp hsource
  rw [content?, getElem?_files_move hfile]
  split
  next => rfl
  next => split <;> rfl

/-- Appending reaches the file whose number it is, and no other. -/
theorem content?_extend (h : directory.Plain) {name : String} {content : Bytes}
    (hname : directory.content? name = some content) (more : Bytes) (other : String) :
    (directory.extend (directory.numberOf name) more).content? other =
      if other = name then some (content ++ more) else directory.content? other := by
  obtain ⟨file, hfile, rfl⟩ := Option.map_eq_some_iff.mp hname
  have hnumber : directory.numberOf name = file.number := by
    simp [numberOf, hfile]
  simp only [content?, extend, Std.ExtTreeMap.getElem?_map]
  by_cases hother : other = name
  · subst hother
    simp [hfile, hnumber]
  · rw [if_neg hother]
    cases hheld : directory.files[other]? with
    | none => rfl
    | some held => simp [h.numberOf_ne hheld hother]

theorem keys_eq {next : Directory}
    (h : ∀ name, (next.content? name).isSome = (directory.content? name).isSome) :
    next.files.keys = directory.files.keys := by
  have hunit : next.files.map (fun _ _ => ()) = directory.files.map fun _ _ => () := by
    apply Std.ExtTreeMap.ext_getElem?
    intro name
    have hname := h name
    rw [content?, content?] at hname
    rw [Std.ExtTreeMap.getElem?_map, Std.ExtTreeMap.getElem?_map]
    cases hnext : next.files[name]? <;> cases hheld : directory.files[name]? <;> simp_all
  have hkeys := congrArg Std.ExtTreeMap.keys hunit
  rwa [Std.ExtTreeMap.keys_map, Std.ExtTreeMap.keys_map] at hkeys

/-! ## Numbers -/

theorem numberOf_eq {name : String} {number : Nat} (h : directory.number? name = some number) :
    directory.numberOf name = number := by
  change (directory.number? name).getD _ = number
  rw [h, Option.getD_some]

theorem number?_of_content? {name : String} {content : Bytes}
    (h : directory.content? name = some content) :
    directory.number? name = some (directory.numberOf name) := by
  obtain ⟨file, hfile, -⟩ := Option.map_eq_some_iff.mp h
  simp [number?, numberOf, hfile]

theorem number?_setContent (name : String) (content : Bytes) (other : String) :
    (directory.setContent name content).number? other =
      if other = name then some (directory.numberOf name) else directory.number? other := by
  simp only [number?, setContent, Std.ExtTreeMap.getElem?_insert,
    Std.LawfulEqCmp.compare_eq_iff_eq, eq_comm (a := name)]
  split <;> rfl

theorem number?_erase (name other : String) : (directory.erase name).number? other =
    if other = name then none else directory.number? other := by
  simp only [number?, erase, Std.ExtTreeMap.getElem?_erase,
    Std.LawfulEqCmp.compare_eq_iff_eq, eq_comm (a := name)]
  split <;> rfl

theorem number?_move {source : String} {content : Bytes}
    (hsource : directory.content? source = some content) {target other : String}
    (htarget : other ≠ target) (hother : other ≠ source) :
    (directory.move source target).number? other = directory.number? other := by
  obtain ⟨file, hfile, -⟩ := Option.map_eq_some_iff.mp hsource
  rw [number?, getElem?_files_move hfile, if_neg htarget, if_neg hother]
  rfl

theorem number?_extend (number : Nat) (more : Bytes) (name : String) :
    (directory.extend number more).number? name = directory.number? name := by
  simp only [number?, extend, Std.ExtTreeMap.getElem?_map]
  cases directory.files[name]? with
  | none => rfl
  | some file =>
      dsimp only [Option.map_some]
      split <;> rfl

/-- No two names have the same number. -/
theorem Plain.eq_of_number? (h : directory.Plain) {a b : String} {number : Nat}
    (ha : directory.number? a = some number) (hb : directory.number? b = some number) : a = b := by
  obtain ⟨first, hfirst, hnumber⟩ := Option.map_eq_some_iff.mp ha
  obtain ⟨second, hsecond, rfl⟩ := Option.map_eq_some_iff.mp hb
  exact h.name_eq a b first second hfirst hsecond hnumber

/-! ## Appending and other effects -/

theorem ext_files {a b : Directory} (hfiles : ∀ name : String, a.files[name]? = b.files[name]?)
    (hfolders : a.folders = b.folders) (hcreated : a.created = b.created) : a = b := by
  obtain ⟨files, folders, created⟩ := a
  obtain ⟨others, _, _⟩ := b
  obtain rfl := hfolders
  obtain rfl := hcreated
  congr 1
  exact Std.ExtTreeMap.ext_getElem? hfiles

theorem getElem?_files_extend (number : Nat) (more : Bytes) (name : String) :
    (directory.extend number more).files[name]? = directory.files[name]?.map fun file =>
      if file.number = number then { file with content := file.content ++ more } else file := by
  rw [extend, Std.ExtTreeMap.getElem?_map]

theorem extend_extend (number : Nat) (more later : Bytes) :
    (directory.extend number more).extend number later
      = directory.extend number (more ++ later) := by
  apply ext_files
  · intro name
    rw [getElem?_files_extend, getElem?_files_extend, getElem?_files_extend, Option.map_map]
    congr 1
    funext file
    by_cases hnumber : file.number = number
    · simp [hnumber]
    · simp [hnumber]
  · rfl
  · rfl

theorem extend_nil (number : Nat) : directory.extend number [] = directory := by
  apply ext_files
  · intro name
    rw [getElem?_files_extend]
    cases directory.files[name]? with
    | none => rfl
    | some file => simp
  · rfl
  · rfl

theorem numberOf_extend (number : Nat) (more : Bytes) (name : String) :
    (directory.extend number more).numberOf name = directory.numberOf name := by
  change ((directory.extend number more).number? name).getD directory.created = _
  rw [number?_extend]
  rfl

theorem has_extend (number : Nat) (more : Bytes) (name : String) :
    (directory.extend number more).has name = directory.has name := by
  rw [has, extend, Std.ExtTreeMap.contains_map]
  rfl

theorem erase_extend (number : Nat) (more : Bytes) (name : String) :
    (directory.extend number more).erase name = (directory.erase name).extend number more := by
  apply ext_files
  · intro other
    rw [getElem?_files_extend]
    simp only [erase, Std.ExtTreeMap.getElem?_erase, getElem?_files_extend]
    split <;> rfl
  · rfl
  · rfl

theorem move_extend (number : Nat) (more : Bytes) (source target : String) :
    (directory.extend number more).move source target
      = (directory.move source target).extend number more := by
  have hextended := directory.getElem?_files_extend number more source
  cases hsource : directory.files[source]? with
  | none =>
      rw [hsource, Option.map_none] at hextended
      simp only [move, hsource, hextended]
      rfl
  | some file =>
      rw [hsource, Option.map_some] at hextended
      apply ext_files
      · intro name
        rw [(directory.move source target).getElem?_files_extend, getElem?_files_move hsource,
          getElem?_files_move hextended, getElem?_files_extend]
        split
        next => rfl
        next => split <;> rfl
      · simp only [move, hsource, hextended]
        rfl
      · simp only [move, hsource, hextended]
        rfl

theorem setContent_extend {number : Nat} (more : Bytes) {name : String} (content : Bytes)
    (hne : directory.numberOf name ≠ number) :
    (directory.extend number more).setContent name content
      = (directory.setContent name content).extend number more := by
  apply ext_files
  · intro other
    rw [getElem?_files_extend]
    simp only [setContent, Std.ExtTreeMap.getElem?_insert, getElem?_files_extend, numberOf_extend]
    split
    next => simp [hne]
    next => rfl
  · rfl
  · simp only [setContent, numberOf_extend]
    rfl

/-- What was appended to a file is lost when the file gets a new content. -/
theorem setContent_extend_self (h : directory.Plain) {number : Nat} (more : Bytes) {name : String}
    (hname : directory.number? name = some number) (content : Bytes) :
    (directory.extend number more).setContent name content = directory.setContent name content := by
  obtain ⟨file, hfile, rfl⟩ := Option.map_eq_some_iff.mp hname
  apply ext_files
  · intro other
    simp only [setContent, Std.ExtTreeMap.getElem?_insert, getElem?_files_extend, numberOf_extend,
      Std.LawfulEqCmp.compare_eq_iff_eq]
    split
    next => rfl
    next hne =>
      cases hother : directory.files[other]? with
      | none => rfl
      | some held =>
        have hnumber : held.number ≠ file.number := fun heq =>
          hne (h.name_eq name other file held hfile hother heq.symm)
        simp [hnumber]
  · rfl
  · simp only [setContent, numberOf_extend]
    rfl

/-- What is appended to a file that is gone is lost. -/
theorem extend_eq_self {number : Nat} (more : Bytes)
    (hgone : ∀ name, directory.number? name ≠ some number) :
    directory.extend number more = directory := by
  apply ext_files
  · intro name
    rw [getElem?_files_extend]
    cases hfile : directory.files[name]? with
    | none => rfl
    | some file =>
        have hne : file.number ≠ number := fun heq => hgone name (by simp [number?, hfile, heq])
        simp [hne]
  · rfl
  · rfl

/-- Files are removed one after the other. -/
theorem number?_foldl_after {effects : List FileEffect}
    (heffects : ∀ effect ∈ effects, ∃ name, effect = .remove name) (name : String) :
    (effects.foldl after directory).number? name
      = if .remove name ∈ effects then none else directory.number? name := by
  induction effects generalizing directory with
  | nil => rfl
  | cons effect rest ih =>
      obtain ⟨other, rfl⟩ := heffects effect List.mem_cons_self
      rw [List.foldl_cons, ih fun later hlater => heffects later (List.mem_cons_of_mem _ hlater),
        after, number?_erase]
      by_cases hname : name = other
      · simp [hname]
      · simp [hname]

theorem foldl_after_extend {effects : List FileEffect}
    (heffects : ∀ effect ∈ effects, ∃ name, effect = .remove name) (number : Nat) (more : Bytes) :
    effects.foldl after (directory.extend number more)
      = (effects.foldl after directory).extend number more := by
  induction effects generalizing directory with
  | nil => rfl
  | cons effect rest ih =>
      obtain ⟨name, rfl⟩ := heffects effect List.mem_cons_self
      rw [List.foldl_cons, List.foldl_cons, after, after, erase_extend]
      exact ih fun later hlater => heffects later (List.mem_cons_of_mem _ hlater)

end

end ViewIndex.Directory
