import ViewIndex.CommandLine.Documents

/-!
# Files with a document on every line

A line of a text stands behind as many line feeds as there are lines before it. A file that is no
array is read line by line. If every line that is not blank holds a JSON value, these are the
documents, in the order of their lines; otherwise the first line that holds none is reported by its
number among the lines that are not blank. That is its number in the text just if no line before it
is blank.
-/

namespace ViewIndex

/-! ## Lines of a text -/

namespace Text

/-- Of what was read of a line only a carriage return may be left out. -/
theorem exists_endLine_append (reversed : List Char) :
    ∃ rest, reversed.reverse = endLine reversed ++ rest := by
  unfold endLine
  split
  next reversed => exact ⟨['\r'], by simp⟩
  next => exact ⟨[], by simp⟩

/-- The induction is on the text that is still to be read; what was read of the current line holds
no line feed. -/
theorem exists_of_getElem?_linesFrom {reversed text line : List Char} {i : Nat}
    (hcurrent : '\n' ∉ reversed) (h : (linesFrom reversed text)[i]? = some line) :
    ∃ before after, reversed.reverse ++ text = before ++ line ++ after ∧
      before.count '\n' = i := by
  fun_induction linesFrom reversed text generalizing i with
  | case1 reversed hempty => simp at h
  | case2 reversed hsome =>
      obtain ⟨rfl, rfl⟩ : i = 0 ∧ reversed.reverse = line := by
        simpa [List.getElem?_singleton] using h
      exact ⟨[], [], by simp, rfl⟩
  | case3 reversed rest ih =>
      cases i with
      | zero =>
          obtain rfl : endLine reversed = line := by simpa using h
          obtain ⟨left, hleft⟩ := exists_endLine_append reversed
          exact ⟨[], left ++ '\n' :: rest, by simp [hleft], rfl⟩
      | succ i =>
          obtain ⟨before, after, hrest, hcount⟩ := ih (by simp) (by simpa using h)
          rw [List.reverse_nil, List.nil_append] at hrest
          refine ⟨reversed.reverse ++ '\n' :: before, after, by simp [hrest], ?_⟩
          have hnone : reversed.reverse.count '\n' = 0 := List.count_eq_zero.mpr (by simpa)
          simp [List.count_append, hnone, hcount]
  | case4 reversed c rest hc ih =>
      have hnext : '\n' ∉ c :: reversed := by
        rw [List.mem_cons, not_or]
        exact ⟨fun heq => hc heq.symm, hcurrent⟩
      simpa using ih hnext h

/-- A line stands behind as many line feeds as there are lines before it. -/
theorem exists_of_getElem?_lines {text line : List Char} {i : Nat}
    (h : (lines text)[i]? = some line) :
    ∃ before after, text = before ++ line ++ after ∧ before.count '\n' = i :=
  exists_of_getElem?_linesFrom (by simp) h

end Text

namespace CommandLine

variable {before after : List (List Char)} {line : List Char} {values : List Json}

theorem readLines_of_map_eq {lines : List (List Char)}
    (h : lines.map Json.parseChars? = values.map some) (number : Nat) :
    readLines number lines = .ok values := by
  induction lines generalizing values number with
  | nil =>
      obtain rfl : values = [] := by simpa using h.symm
      rfl
  | cons line rest ih =>
      cases values with
      | nil => simp at h
      | cons value others =>
          obtain ⟨hvalue, hothers⟩ := List.cons.inj h
          simp only [readLines, hvalue, ih hothers]
          rfl

/-- Lines are counted up to the first one that holds no value. -/
theorem readLines_append (hbefore : ∀ earlier ∈ before, (Json.parseChars? earlier).isSome = true)
    (hline : Json.parseChars? line = none) (number : Nat) :
    readLines number (before ++ line :: after) = .error (.line (number + before.length)) := by
  induction before generalizing number with
  | nil => simp [readLines, hline]
  | cons first rest ih =>
      obtain ⟨hfirst, hrest⟩ := List.forall_mem_cons.mp hbefore
      obtain ⟨value, hvalue⟩ := Option.isSome_iff_exists.mp hfirst
      rw [List.cons_append, readLines, hvalue, ih hrest, List.length_cons, Nat.add_right_comm]
      rfl

/-! ## The first bad line -/

/-- The line with this number, counted from zero, is the first one that is neither blank nor a JSON
value. -/
structure FirstBad (lines : List (List Char)) (i : Nat) (line : List Char) : Prop where
  get : lines[i]? = some line
  notBlank : Text.allBlank line = false
  notJson : Json.parseChars? line = none
  first : ∀ earlier ∈ lines.take i,
    Text.allBlank earlier = false → (Json.parseChars? earlier).isSome = true

theorem FirstBad.cons {lines : List (List Char)} {i : Nat} {first : List Char}
    (h : FirstBad lines i line)
    (hfirst : Text.allBlank first = false → (Json.parseChars? first).isSome = true) :
    FirstBad (first :: lines) (i + 1) line where
  get := by simpa using h.get
  notBlank := h.notBlank
  notJson := h.notJson
  first := List.forall_mem_cons.mpr ⟨hfirst, h.first⟩

/-- Unless all lines that are not blank hold values, there is a first bad one. -/
theorem exists_firstBad {lines : List (List Char)}
    (h : ∃ line ∈ lines, Text.allBlank line = false ∧ Json.parseChars? line = none) :
    ∃ i line, FirstBad lines i line := by
  induction lines with
  | nil => simp at h
  | cons first rest ih =>
      by_cases hfirst : Text.allBlank first = false ∧ Json.parseChars? first = none
      · exact ⟨0, first, rfl, hfirst.1, hfirst.2, by simp⟩
      · simp only [List.mem_cons, exists_eq_or_imp, or_iff_right hfirst] at h
        obtain ⟨i, line, hbad⟩ := ih h
        refine ⟨i + 1, line, hbad.cons fun hblank => ?_⟩
        rw [Option.isSome_iff_ne_none]
        exact fun hnone => hfirst ⟨hblank, hnone⟩

theorem FirstBad.filter_eq {lines : List (List Char)} {i : Nat} (h : FirstBad lines i line) :
    lines.filter (!Text.allBlank ·) = (lines.take i).filter (!Text.allBlank ·)
      ++ line :: (lines.drop (i + 1)).filter (!Text.allBlank ·) := by
  obtain ⟨hi, rfl⟩ := List.getElem?_eq_some_iff.mp h.get
  have hlines : lines = lines.take i ++ lines[i] :: lines.drop (i + 1) := by
    rw [← List.drop_eq_getElem_cons, List.take_append_drop]
  have hline : (!Text.allBlank lines[i]) = true := by rw [h.notBlank]; rfl
  rw [← List.filter_cons_of_pos (p := (!Text.allBlank ·)) hline, ← List.filter_append, ← hlines]

/-! ## Reading documents -/

section

variable {text : String} (h : (Text.trimStart text.toList).head? ≠ some '[')

include h

theorem readDocuments_eq_readLines :
    readDocuments text = readLines 1 ((Text.lines text.toList).filter (!Text.allBlank ·)) :=
  if_neg h

theorem exists_readDocuments (hvalid : ∀ line ∈ Text.lines text.toList,
      Text.allBlank line = false → (Json.parseChars? line).isSome = true) :
    ∃ values, readDocuments text = .ok values ∧
      ((Text.lines text.toList).filter (!Text.allBlank ·)).map Json.parseChars?
        = values.map some := by
  let contents := (Text.lines text.toList).filter (!Text.allBlank ·)
  have hvalues : contents.map Json.parseChars?
      = (contents.filterMap Json.parseChars?).map some := by
    rw [List.map_filterMap_some_eq_filter_map_isSome, List.filter_eq_self.mpr]
    intro value hvalue
    obtain ⟨line, hline, rfl⟩ := List.mem_map.mp hvalue
    obtain ⟨hmem, hblank⟩ := List.mem_filter.mp hline
    exact hvalid line hmem (by simpa using hblank)
  refine ⟨_, ?_, hvalues⟩
  rw [readDocuments_eq_readLines h]
  exact readLines_of_map_eq hvalues 1

theorem readDocuments_of_firstBad {i : Nat} (hbad : FirstBad (Text.lines text.toList) i line) :
    readDocuments text = .error (.line
      (((Text.lines text.toList).take i).countP (!Text.allBlank ·) + 1)) := by
  have hbefore : ∀ earlier ∈ ((Text.lines text.toList).take i).filter (!Text.allBlank ·),
      (Json.parseChars? earlier).isSome = true := by
    intro earlier hearlier
    obtain ⟨hmem, hblank⟩ := List.mem_filter.mp hearlier
    exact hbad.first earlier hmem (by simpa using hblank)
  rw [readDocuments_eq_readLines h, hbad.filter_eq, readLines_append hbefore hbad.notJson,
    List.countP_eq_length_filter, Nat.add_comm]

/-- The number of a bad line in the text is reported just if no line before it is blank. -/
theorem readDocuments_eq_error_iff {i : Nat}
    (hbad : FirstBad (Text.lines text.toList) i line) :
    readDocuments text = .error (.line (i + 1)) ↔
      ∀ earlier ∈ (Text.lines text.toList).take i, Text.allBlank earlier = false := by
  have hlength : ((Text.lines text.toList).take i).length = i :=
    List.length_take_of_le (Nat.le_of_lt (List.getElem?_eq_some_iff.mp hbad.get).1)
  have hall := List.countP_eq_length (p := (!Text.allBlank ·))
    (l := (Text.lines text.toList).take i)
  simp only [hlength, Bool.not_eq_true'] at hall
  rw [readDocuments_of_firstBad h hbad, ← hall]
  simp

/-- A file that does not begin with a bracket gives the values of the lines that are not blank, in
order. Unless all of these hold values there is a first one that does not, and it is reported by its
number among them. Its number in the text, which tells the line feeds before it, is reported just if
none of the lines before it is blank. -/
theorem readDocuments_lines :
    ((∀ line ∈ Text.lines text.toList,
        Text.allBlank line = false → (Json.parseChars? line).isSome = true) →
      ∃ values, readDocuments text = .ok values ∧
        ((Text.lines text.toList).filter (!Text.allBlank ·)).map Json.parseChars?
          = values.map some) ∧
    ((∃ line ∈ Text.lines text.toList,
        Text.allBlank line = false ∧ Json.parseChars? line = none) →
      ∃ i line, FirstBad (Text.lines text.toList) i line) ∧
    ∀ i line, FirstBad (Text.lines text.toList) i line →
      (∃ before after, text.toList = before ++ line ++ after ∧ before.count '\n' = i) ∧
      readDocuments text = .error (.line
        (((Text.lines text.toList).take i).countP (!Text.allBlank ·) + 1)) ∧
      (readDocuments text = .error (.line (i + 1)) ↔
        ∀ earlier ∈ (Text.lines text.toList).take i, Text.allBlank earlier = false) := by
  refine ⟨exists_readDocuments h, exists_firstBad, fun i line hbad => ?_⟩
  exact ⟨Text.exists_of_getElem?_lines hbad.get, readDocuments_of_firstBad h hbad,
    readDocuments_eq_error_iff h hbad⟩

end

/-- Behind a document and a blank line, both ended by a carriage return as well, the third line is
bad, and the second one that is not blank. -/
theorem readDocuments_lines_blank :
    let text := "true\r\n \t\r\n2,\n3"
    FirstBad (Text.lines text.toList) 2 ['2', ','] ∧
      (∃ before after, text.toList = before ++ ['2', ','] ++ after ∧ before.count '\n' = 2) ∧
      readDocuments text = .error (.line 2) ∧ readDocuments text ≠ .error (.line 3) := by
  intro text
  have hbad : FirstBad (Text.lines text.toList) 2 ['2', ','] :=
    ⟨by decide +kernel, by decide, by decide +kernel, by decide +kernel⟩
  have hcount : ((Text.lines text.toList).take 2).countP (!Text.allBlank ·) = 1 := by
    decide +kernel
  obtain ⟨-, -, hfirst⟩ := @readDocuments_lines text (by decide +kernel)
  obtain ⟨hplace, hnumber, hsame⟩ := hfirst 2 _ hbad
  rw [hcount] at hnumber
  exact ⟨hbad, hplace, hnumber, fun h => absurd (hsame.mp h) (by decide +kernel)⟩

/-- A blank line is not counted: the second line of the text is bad, and the first one is
reported. -/
theorem not_readDocuments_eq_error_blank :
    let text := "\n\x7b"
    (Text.trimStart text.toList).head? ≠ some '[' ∧
      FirstBad (Text.lines text.toList) 1 ['\x7b'] ∧
      readDocuments text = .error (.line 1) ∧ readDocuments text ≠ .error (.line 2) := by
  intro text
  have hstart : (Text.trimStart text.toList).head? ≠ some '[' := by decide +kernel
  have hbad : FirstBad (Text.lines text.toList) 1 ['\x7b'] :=
    ⟨by decide +kernel, by decide, by decide +kernel, by decide +kernel⟩
  have hcount : ((Text.lines text.toList).take 1).countP (!Text.allBlank ·) = 0 := by
    decide +kernel
  have hread := readDocuments_of_firstBad hstart hbad
  rw [hcount] at hread
  refine ⟨hstart, hbad, hread, ?_⟩
  rw [hread]
  simp

end CommandLine

end ViewIndex
