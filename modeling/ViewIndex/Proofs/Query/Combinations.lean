import ViewIndex.Proofs.Query.Accounting

/-!
# Combinations of choices

A round lists a combination for every group of its answers: answers that show the same second
component and selected the same choices. Components that are no integers all belong to round zero,
so there a combination can be listed more than once; in the other rounds it cannot.
-/

namespace ViewIndex

open ViewIndex.Tree (GroupLevel)

/-! ## Groups of answers -/

namespace Tree.GroupLevel

variable {level : GroupLevel} {rows : List ViewRow}

/-- A row that counts a group shows only what the keys of the group have in common. -/
theorem leading_key_of_mem {row : ViewRow} (h : row ∈ (level.runs rows).map level.countRow) :
    level.leading row.key = row.key := by
  obtain ⟨run, -, rfl⟩ := List.mem_map.mp h
  cases run with
  | nil => cases level <;> rfl
  | cons first rest => exact leading_leading level first.key

theorem respects_leading (level : GroupLevel) (key : Json) :
    level.Respects fun row => decide (level.leading row.key = key) := by
  intro a b h
  dsimp only
  rw [h]

end Tree.GroupLevel

namespace PlainEntry

variable {e other : PlainEntry} {bound : Nat} {choices : List Nat}

/-- Answers are of one group exactly if the first three components of their keys are shown alike. -/
theorem leading_row_eq_iff : (GroupLevel.components 3).leading e.row.key
      = (GroupLevel.components 3).leading other.row.key ↔
    ∀ i < 3, e.shown? i = other.shown? i := by
  have hleading (e : PlainEntry) : (GroupLevel.components 3).leading e.row.key
      = .array ((e.key.map KeyPart.toJson).take 3) := by
    rw [row, Key.toJson, KeyPart.toJsonItems_eq_map, GroupLevel.leading]
  have hshown (e : PlainEntry) (i : Nat) : ((e.key.map KeyPart.toJson).take 3)[i]?
      = if i < 3 then e.shown? i else none := by
    rw [List.getElem?_take, shown?, List.getElem?_map]
  rw [hleading, hleading, Json.array.injEq, List.ext_getElem?_iff]
  simp only [hshown]
  refine forall_congr' fun i => ?_
  split
  next hlt => simp [hlt]
  next hge => simp [hge]

theorem Selects.shown_eq (h : e.Selects bound choices) :
    e.shown? 2 = some (.array (choices.map Json.nat)) := by
  have hselected := h.2.2
  rw [selected] at hselected
  cases hshown : e.shown? 2 with
  | none => rw [hshown] at hselected; cases hselected
  | some value => rw [hshown] at hselected; exact congrArg some hselected

theorem Selects.of_shown_eq (h : e.Selects bound choices) (hshown : other.shown? 2 = e.shown? 2) :
    other.Selects bound choices := by
  refine ⟨h.1, h.2.1, ?_⟩
  rw [selected, hshown, ← selected]
  exact h.2.2

/-- The same selection, shown with the same content and round, is of one group. -/
theorem Selects.leading_row_eq (h : e.Selects bound choices) (hother : other.Selects bound choices)
    (hcontent : e.shown? 0 = other.shown? 0) (hround : e.shown? 1 = other.shown? 1) :
    (GroupLevel.components 3).leading e.row.key
      = (GroupLevel.components 3).leading other.row.key := by
  rw [leading_row_eq_iff]
  intro i hi
  match i, hi with
  | 0, _ => exact hcontent
  | 1, _ => exact hround
  | 2, _ => exact h.shown_eq.trans hother.shown_eq.symm

theorem round_eq_of_shown (h : e.shown? 1 = other.shown? 1) : e.round = other.round := by
  rw [round, round, h]

/-- Only round zero has answers whose second component is not its number. -/
theorem shown_eq_of_round (h : e.round ≠ 0) : e.shown? 1 = some (.number (.int e.round)) := by
  unfold round at h ⊢
  split at h
  next i hshown =>
    split at h
    next hrange => rw [hshown, if_pos hrange]
    next => exact absurd rfl h
  next => exact absurd rfl h

end PlainEntry

namespace AnswerStatistics

variable {choiceCount : Option Nat} {rows : List ViewRow} {row : ViewRow}
  {answers : List PlainEntry} {n : Int}

theorem CountsGroups.exists_row_iff (h : CountsGroups rows answers) {key : Json} :
    (∃ row ∈ rows, row.key = key) ↔
      ∃ e ∈ answers, (GroupLevel.components 3).leading e.row.key = key := by
  have hexists := (GroupLevel.respects_leading (.components 3) key).exists_iff
    (answers.map PlainEntry.row)
  rw [← h] at hexists
  simp only [decide_eq_true_iff, List.mem_map, exists_exists_and_eq_and] at hexists
  rw [← hexists]
  refine exists_congr fun row => and_congr_right fun hrow => ?_
  rw [GroupLevel.leading_key_of_mem (h ▸ hrow)]

/-- A row counts the answers of its group. -/
theorem CountsGroups.count_eq (h : CountsGroups rows answers)
    (hnodup : (rows.map ViewRow.key).Nodup) (hrow : row ∈ rows) :
    row.count = answers.countP fun e =>
      (GroupLevel.components 3).leading e.row.key = row.key := by
  have hsum := (GroupLevel.respects_leading (.components 3) row.key).sum_count
    (answers.map PlainEntry.row)
  rw [← h, List.countP_map] at hsum
  have hfilter : (rows.filter fun other =>
      decide ((GroupLevel.components 3).leading other.key = row.key)) = [row] := by
    rw [← filter_eq_singleton_of_nodup hnodup hrow]
    refine List.filter_congr fun other hother => ?_
    rw [GroupLevel.leading_key_of_mem (h ▸ hother)]
  rw [hfilter, List.map_singleton, List.sum_singleton] at hsum
  exact hsum

/-- Round and selection of a row are those of the answers of its group. -/
theorem CountsGroups.alike (h : CountsGroups rows answers) (hrow : row ∈ rows) {e : PlainEntry}
    (hkey : (GroupLevel.components 3).leading e.row.key = row.key) :
    roundOf row = e.round ∧
      ∀ bound choices, selectionOf bound row = .choices choices ↔ e.Selects bound choices := by
  have hleading : (GroupLevel.components 3).leading row.key
      = (GroupLevel.components 3).leading e.row.key :=
    (GroupLevel.leading_key_of_mem (h ▸ hrow)).trans hkey.symm
  refine ⟨(roundOf_eq hleading).trans e.roundOf_row, fun bound choices => ?_⟩
  rw [selectionOf_eq hleading, e.selectionOf_row_eq_choices_iff]

theorem CountsGroups.exists_answer (h : CountsGroups rows answers) (hrow : row ∈ rowsOf n rows)
    {bound : Nat} {choices : List Nat} (hselection : selectionOf bound row = .choices choices) :
    ∃ e ∈ answers, e.round = n ∧ e.Selects bound choices ∧
      (GroupLevel.components 3).leading e.row.key = row.key := by
  obtain ⟨hrow, hround⟩ := List.mem_filter.mp hrow
  obtain ⟨e, he, hkey⟩ := h.exists_row_iff.mp ⟨row, hrow, rfl⟩
  obtain ⟨hround', hselects⟩ := h.alike hrow hkey
  exact ⟨e, he, hround'.symm.trans (of_decide_eq_true hround), (hselects _ _).mp hselection, hkey⟩

theorem CountsGroups.exists_row (h : CountsGroups rows answers) {e : PlainEntry} (he : e ∈ answers)
    (hround : e.round = n) {bound : Nat} {choices : List Nat} (hselects : e.Selects bound choices) :
    ∃ row ∈ rowsOf n rows, selectionOf bound row = .choices choices ∧
      (GroupLevel.components 3).leading e.row.key = row.key := by
  obtain ⟨row, hrow, hkey⟩ := h.exists_row_iff.mpr ⟨e, he, rfl⟩
  obtain ⟨hround', hselection⟩ := h.alike hrow hkey.symm
  exact ⟨row, List.mem_filter.mpr ⟨hrow, decide_eq_true (hround'.trans hround)⟩,
    (hselection _ _).mpr hselects, hkey.symm⟩

/-- Two rows have the same choices. -/
def SelectAlike (bound : Nat) (a b : ViewRow) : Prop :=
  ∃ choices, selectionOf bound a = .choices choices ∧ selectionOf bound b = .choices choices

instance (bound : Nat) : Std.Symm fun a b => ¬SelectAlike bound a b :=
  ⟨fun _ _ hnot ⟨choices, hb, ha⟩ => hnot ⟨choices, ha, hb⟩⟩

/-- No combination is listed twice exactly if no two rows have the same choices. -/
theorem nodup_choices_iff {rows : List ViewRow} :
    ((rows.filterMap (combination? choiceCount)).map Combination.choices).Nodup ↔
      rows.Pairwise fun a b => ¬SelectAlike (choiceCount.getD maxChoices) a b := by
  rw [List.Nodup, List.pairwise_map, List.pairwise_filterMap]
  simp only [combination?_eq_some_iff]
  constructor
  · intro h
    refine h.imp fun {a b} hne => ?_
    rintro ⟨choices, ha, hb⟩
    exact hne ⟨choices, a.count⟩ ⟨ha, rfl⟩ ⟨choices, b.count⟩ ⟨hb, rfl⟩ rfl
  · intro h
    refine h.imp fun {a b} hnot first hfirst second hsecond heq => ?_
    exact hnot ⟨first.choices, hfirst.1, heq ▸ hsecond.1⟩

end AnswerStatistics

/-- The combinations of a round are the groups of its answers that show the same second component
and selected the same choices. -/
structure RoundStatistics.ListsCombinations (round : RoundStatistics) (answers : List PlainEntry)
    (bound : Nat) : Prop where
  grouped : ∀ combination ∈ round.combinations, ∃ e ∈ answers,
    e.Selects bound combination.choices ∧ combination.count = answers.countP fun other =>
      other.Selects bound combination.choices ∧ other.shown? 1 = e.shown? 1
  listed : ∀ e ∈ answers, ∀ choices, e.Selects bound choices →
    ∃ combination ∈ round.combinations, combination.choices = choices ∧
      combination.count = answers.countP fun other =>
        other.Selects bound choices ∧ other.shown? 1 = e.shown? 1
  nodup_iff : (round.combinations.map Combination.choices).Nodup ↔
    ∀ e ∈ answers, ∀ other ∈ answers, ∀ choices, e.Selects bound choices →
      other.Selects bound choices → e.shown? 1 = other.shown? 1

theorem RoundStatistics.ListsCombinations.exact_iff {round : RoundStatistics}
    {answers : List PlainEntry} {bound : Nat} (h : round.ListsCombinations answers bound) :
    (round.combinations.map Combination.choices).Nodup ↔ ∀ combination ∈ round.combinations,
      combination.count = answers.countP fun e => e.Selects bound combination.choices := by
  rw [h.nodup_iff]
  constructor
  · intro hsame combination hcombination
    obtain ⟨e, he, hselects, hcount⟩ := h.grouped combination hcombination
    rw [hcount]
    refine List.countP_congr fun other hother => ?_
    simp only [decide_eq_true_iff, and_iff_left_iff_imp]
    exact fun hother' => hsame other hother e he _ hother' hselects
  · intro hcounts e he other hother choices hselects hselects'
    obtain ⟨combination, hcombination, rfl, hcount⟩ := h.listed e he choices hselects
    rw [hcounts combination hcombination] at hcount
    exact (forall_of_countP_and_eq hcount.symm other hother hselects').symm

namespace AnswerStatistics

section Round

variable {choiceCount : Option Nat} {rows : List ViewRow} {answers : List PlainEntry} {n : Int}
  {combination : Combination}

theorem mem_combinations_iff : combination ∈ ((rowsOf n rows).foldl (takeRow choiceCount)
      (freshRound choiceCount)).combinations ↔
    ∃ row ∈ rowsOf n rows,
      selectionOf (choiceCount.getD maxChoices) row = .choices combination.choices ∧
      row.count = combination.count := by
  rw [combinations_foldl, freshRound, List.nil_append, List.mem_filterMap]
  simp only [combination?_eq_some_iff]

variable (h : CountsGroups rows answers) (hnodup : (rows.map ViewRow.key).Nodup)
  {contentId : String} (hcontent : ∀ e ∈ answers, e.shown? 0 = some (.text contentId))

include h hnodup hcontent

theorem CountsGroups.count_of_selects {row : ViewRow} (hrow : row ∈ rowsOf n rows) {e : PlainEntry}
    (he : e ∈ answers) (hround : e.round = n)
    (hkey : (GroupLevel.components 3).leading e.row.key = row.key) {bound : Nat}
    {choices : List Nat} (hselects : e.Selects bound choices) :
    row.count = (answers.filter fun other => other.round = n).countP fun other =>
      other.Selects bound choices ∧ other.shown? 1 = e.shown? 1 := by
  rw [h.count_eq hnodup (List.mem_filter.mp hrow).1, List.countP_filter, ← hkey]
  refine List.countP_congr fun other hother => ?_
  simp only [decide_eq_true_iff, Bool.and_eq_true]
  constructor
  · intro hleading
    have hshown := PlainEntry.leading_row_eq_iff.mp hleading
    exact ⟨⟨hselects.of_shown_eq (hshown 2 (by decide)), hshown 1 (by decide)⟩,
      (PlainEntry.round_eq_of_shown (hshown 1 (by decide))).trans hround⟩
  · rintro ⟨⟨hselects', hshown⟩, -⟩
    exact hselects'.leading_row_eq hselects
      ((hcontent other hother).trans (hcontent e he).symm) hshown

/-- No two rows of a round have the same choices exactly if answers of the round that selected the
same choices show the same second component. -/
theorem CountsGroups.pairwise_not_selectAlike_iff (n : Int) (bound : Nat) :
    ((rowsOf n rows).Pairwise fun a b => ¬SelectAlike bound a b) ↔
      ∀ e ∈ answers.filter (fun e => e.round = n), ∀ other ∈ answers.filter (fun e => e.round = n),
        ∀ choices, e.Selects bound choices → other.Selects bound choices →
          e.shown? 1 = other.shown? 1 := by
  constructor
  · intro hrows e he other hother choices hselects hselects'
    obtain ⟨he, hround⟩ := List.mem_filter.mp he
    obtain ⟨hother, hround'⟩ := List.mem_filter.mp hother
    obtain ⟨a, ha, hselection, hkey⟩ := h.exists_row he (of_decide_eq_true hround) hselects
    obtain ⟨b, hb, hselection', hkey'⟩ := h.exists_row hother (of_decide_eq_true hround') hselects'
    by_cases hab : a = b
    · rw [hab, ← hkey'] at hkey
      exact PlainEntry.leading_row_eq_iff.mp hkey 1 (by decide)
    · exact absurd ⟨choices, hselection, hselection'⟩ (hrows.forall ha hb hab)
  · intro hanswers
    refine ((List.pairwise_map.mp hnodup).filter _).imp_of_mem ?_
    rintro a b ha hb hne ⟨choices, hselection, hselection'⟩
    obtain ⟨e, he, hround, hselects, hkey⟩ := h.exists_answer ha hselection
    obtain ⟨other, hother, hround', hselects', hkey'⟩ := h.exists_answer hb hselection'
    have hshown := hanswers e (List.mem_filter.mpr ⟨he, decide_eq_true hround⟩) other
      (List.mem_filter.mpr ⟨hother, decide_eq_true hround'⟩) choices hselects hselects'
    apply hne
    rw [← hkey, ← hkey']
    exact hselects.leading_row_eq hselects' ((hcontent e he).trans (hcontent other hother).symm)
      hshown

theorem CountsGroups.listsCombinations (choiceCount : Option Nat) (n : Int) :
    ((rowsOf n rows).foldl (takeRow choiceCount) (freshRound choiceCount)).ListsCombinations
      (answers.filter fun e => e.round = n) (choiceCount.getD maxChoices) where
  grouped combination hcombination := by
    obtain ⟨row, hrow, hselection, hcount⟩ := mem_combinations_iff.mp hcombination
    obtain ⟨e, he, hround, hselects, hkey⟩ := h.exists_answer hrow hselection
    refine ⟨e, List.mem_filter.mpr ⟨he, decide_eq_true hround⟩, hselects, ?_⟩
    rw [← hcount]
    exact h.count_of_selects hnodup hcontent hrow he hround hkey hselects
  listed e he choices hselects := by
    obtain ⟨he, hround⟩ := List.mem_filter.mp he
    obtain ⟨row, hrow, hselection, hkey⟩ := h.exists_row he (of_decide_eq_true hround) hselects
    exact ⟨⟨choices, row.count⟩, mem_combinations_iff.mpr ⟨row, hrow, hselection, rfl⟩, rfl,
      h.count_of_selects hnodup hcontent hrow he (of_decide_eq_true hround) hkey hselects⟩
  nodup_iff := by
    rw [combinations_foldl, freshRound, List.nil_append, nodup_choices_iff]
    exact h.pairwise_not_selectAlike_iff hnodup hcontent n _

end Round

end AnswerStatistics

namespace Engine

open IndexStore (Write)

variable {φ : Type} [ChangeFeed φ]

/-- Whatever has been written to the view of answers by content, round and choices, each round with
answers is listed, and its combinations are the groups of its answers. No combination is listed
twice exactly if each one counts all answers of the round with its choices; in all rounds but round
zero that is so. -/
theorem answerStatistics_listsCombinations (engine : Engine φ) (ix : Indexer)
    (hix : engine.indexer View.byChoices.name = .ok ix) (hview : ix.view = View.byChoices)
    (writes : List Write) (hdistinct : ∀ w ∈ writes, w.Distinct)
    (hencoded : ∀ w ∈ writes, w.Encoded)
    (hstore : ix.store
      = writes.foldl IndexStore.write (.empty View.byChoices.name View.byChoices.reducer))
    (contentId : String) (choiceCount : Option Nat) :
    ∃ statistics, engine.answerStatistics contentId choiceCount = .ok statistics ∧
      (∀ n, (∃ round, (n, round) ∈ statistics.rounds.toList) ↔
        ix.store.current.answersOf contentId n ≠ []) ∧
      ∀ n round, (n, round) ∈ statistics.rounds.toList →
        round.ListsCombinations (ix.store.current.answersOf contentId n)
          (choiceCount.getD 1024) ∧
        ((round.combinations.map Combination.choices).Nodup ↔
          ∀ combination ∈ round.combinations, combination.count
            = (ix.store.current.answersOf contentId n).countP fun e =>
              e.Selects (choiceCount.getD 1024) combination.choices) ∧
        (n ≠ 0 → (round.combinations.map Combination.choices).Nodup) := by
  obtain ⟨result, hstatistics, hrows, hnodup⟩ :=
    exists_answerStatistics hix hview hdistinct hencoded hstore contentId choiceCount
  refine ⟨_, hstatistics, hrows.exists_round_iff contentId choiceCount, fun n round hround => ?_⟩
  rw [AnswerStatistics.eq_of_mem_rounds hround]
  have hcontent : ∀ e ∈ (ix.store.current.entries.map Entry.plain).filter
      (fun e => e.shown? 0 = some (.text contentId)), e.shown? 0 = some (.text contentId) :=
    fun e he => of_decide_eq_true (List.mem_filter.mp he).2
  have hlists := hrows.listsCombinations hnodup hcontent choiceCount n
  refine ⟨hlists, hlists.exact_iff, fun hn => hlists.nodup_iff.mpr ?_⟩
  intro e he other hother choices _ _
  have hround : e.round = n := of_decide_eq_true (List.mem_filter.mp he).2
  have hround' : other.round = n := of_decide_eq_true (List.mem_filter.mp hother).2
  rw [PlainEntry.shown_eq_of_round (hround ▸ hn), PlainEntry.shown_eq_of_round (hround' ▸ hn),
    hround, hround']

/-- Two answers of the first round selected the same two choices; they are one combination. -/
theorem answerStatistics_listsCombinations_answered : ∃ statistics round,
    Answered.engine.answerStatistics "c" none = .ok statistics ∧
    (1, round) ∈ statistics.rounds.toList ∧
    (round.combinations.map Combination.choices).Nodup ∧
    ∀ combination ∈ round.combinations, combination.choices = [0, 2] →
      combination.count = 2 := by
  obtain ⟨statistics, hstatistics, hlisted, hrounds⟩ := answerStatistics_listsCombinations
    Answered.engine Answered.indexer rfl rfl Answered.writes
    (by simp [Answered.writes, Write.Distinct]) Answered.encoded_writes rfl "c" none
  obtain ⟨round, hround⟩ := (hlisted 1).mpr (by decide +kernel)
  obtain ⟨-, hexact, hnodup⟩ := hrounds 1 round hround
  have hnodup := hnodup (by decide)
  refine ⟨statistics, round, hstatistics, hround, hnodup, fun combination hmem hchoices => ?_⟩
  rw [hexact.mp hnodup combination hmem, hchoices]
  decide +kernel

/-- Two answers that selected the same choice, one of round zero and one without a round. -/
def Answered.mixed : List Write :=
  [.applyBatch [Answered.answer "a" [.text "c", .null, Answered.choices [0]],
    Answered.answer "b" [.text "c", .number (Binary64.ofInt 0), Answered.choices [0]]] none]

/-- Their combination is listed twice, and counts one of them each time. -/
theorem not_nodup_combinations_mixed :
    (((Answered.indexerOf Answered.mixed).store.current.answersOf "c" 0).countP fun e =>
      e.Selects 1024 [0]) = 2 ∧
    ∃ statistics,
      (Answered.engineOf Answered.mixed).answerStatistics "c" none = .ok statistics ∧
      statistics.rounds.toList = [(0, ⟨[2], [⟨[0], 1⟩, ⟨[0], 1⟩], 0⟩)] := by
  exact ⟨by decide +kernel, _, rfl, by decide +kernel⟩

end Engine

end ViewIndex
