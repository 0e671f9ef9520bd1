import ViewIndex.Proofs.Query.Accounting

/-!
# Counts of choices

The count of a choice in a round adds up how often the answers of the round listed it. So it is the
number of answers that selected the choice exactly if none of them listed it twice. The counts reach
as far as the announced choices and the last one that was selected.
-/

namespace ViewIndex

open ViewIndex.Tree (GroupLevel)

/-! ## Adding to the count of a choice -/

variable {count choice i : Nat} {counts selected : List Nat}

theorem getD_addToChoice (count choice : Nat) (counts : List Nat) (i : Nat) :
    (addToChoice count choice counts).getD i 0
      = counts.getD i 0 + if i = choice then count else 0 := by
  induction choice, counts using addToChoice.induct generalizing i with
  | case1 => cases i <;> simp [addToChoice]
  | case2 n rest => cases i <;> simp [addToChoice]
  | case3 choice ih =>
      cases i with
      | zero => simp [addToChoice]
      | succ i => simpa [addToChoice] using ih i
  | case4 choice n rest ih =>
      cases i with
      | zero => simp [addToChoice]
      | succ i => simpa [addToChoice] using ih i

theorem lt_length_addToChoice_iff :
    i < (addToChoice count choice counts).length ↔ i < counts.length ∨ i ≤ choice := by
  induction choice, counts using addToChoice.induct generalizing i with
  | case1 => simp [addToChoice]
  | case2 n rest =>
      simp only [addToChoice, List.length_cons]
      omega
  | case3 choice ih => cases i <;> simp [addToChoice, ih]
  | case4 choice n rest ih => cases i <;> simp [addToChoice, ih]

/-- Every index of a selection is counted as often as it is listed. -/
theorem getD_foldl_addToChoice (count : Nat) (selected counts : List Nat) (i : Nat) :
    (selected.foldl (fun counts choice => addToChoice count choice counts) counts).getD i 0
      = counts.getD i 0 + selected.count i * count := by
  induction selected generalizing counts with
  | nil => simp
  | cons choice rest ih =>
      rw [List.foldl_cons, ih, getD_addToChoice]
      by_cases h : i = choice
      · rw [h, List.count_cons_self, if_pos rfl, Nat.add_mul, Nat.one_mul]
        omega
      · rw [List.count_cons_of_ne (Ne.symm h), if_neg h, Nat.add_zero]

theorem lt_length_foldl_addToChoice_iff :
    i < (selected.foldl (fun counts choice => addToChoice count choice counts) counts).length ↔
      i < counts.length ∨ ∃ choice ∈ selected, i ≤ choice := by
  induction selected generalizing counts with
  | nil => simp
  | cons choice rest ih =>
      rw [List.foldl_cons, ih, lt_length_addToChoice_iff, List.exists_mem_cons_iff, or_assoc]

/-! ## The counts of a round -/

/-- The indexes that are listed. -/
def Selection.indexes : Selection → List Nat
  | .choices indexes => indexes
  | _ => []

/-- The choices that an answer is counted for: all that it lists if they are in range. -/
def PlainEntry.chosen (e : PlainEntry) (bound : Nat) : List Nat :=
  (Selection.ofJson bound e.selected).indexes

namespace AnswerStatistics

variable {choiceCount : Option Nat} {rows : List ViewRow} {answers : List PlainEntry} {n : Int}

/-- The indexes for which a row is counted. -/
def indexesOf (choiceCount : Option Nat) (row : ViewRow) : List Nat :=
  (selectionOf (choiceCount.getD maxChoices) row).indexes

theorem indexesOf_row (choiceCount : Option Nat) (e : PlainEntry) :
    indexesOf choiceCount e.row = e.chosen (choiceCount.getD maxChoices) := by
  rw [indexesOf, PlainEntry.selectionOf_row, PlainEntry.chosen]

theorem choiceCounts_takeRow (round : RoundStatistics) (row : ViewRow) :
    (takeRow choiceCount round row).choiceCounts
      = (indexesOf choiceCount row).foldl
        (fun counts choice => addToChoice row.count choice counts) round.choiceCounts := by
  rw [takeRow, indexesOf]
  cases selectionOf (choiceCount.getD maxChoices) row <;> rfl

theorem getD_choiceCounts_foldl (choiceCount : Option Nat) (rows : List ViewRow)
    (round : RoundStatistics) (i : Nat) :
    (rows.foldl (takeRow choiceCount) round).choiceCounts.getD i 0
      = round.choiceCounts.getD i 0
        + (rows.map fun row => (indexesOf choiceCount row).count i * row.count).sum := by
  induction rows generalizing round with
  | nil => rfl
  | cons row rest ih =>
      rw [List.foldl_cons, ih, choiceCounts_takeRow, getD_foldl_addToChoice, List.map_cons,
        List.sum_cons, Nat.add_assoc]

theorem lt_length_choiceCounts_foldl_iff {rows : List ViewRow} {round : RoundStatistics} :
    i < (rows.foldl (takeRow choiceCount) round).choiceCounts.length ↔
      i < round.choiceCounts.length ∨
        ∃ row ∈ rows, ∃ choice ∈ indexesOf choiceCount row, i ≤ choice := by
  induction rows generalizing round with
  | nil => simp
  | cons row rest ih =>
      rw [List.foldl_cons, ih, choiceCounts_takeRow, lt_length_foldl_addToChoice_iff,
        List.exists_mem_cons_iff, or_assoc]

/-- The rows of a round list a choice as often as the answers of the round do. -/
theorem CountsGroups.sum_indexes (h : CountsGroups rows answers) (choiceCount : Option Nat)
    (n : Int) (i : Nat) :
    ((rowsOf n rows).map fun row => (indexesOf choiceCount row).count i * row.count).sum
      = ((answers.filter fun e => e.round = n).map fun e =>
          (e.chosen (choiceCount.getD maxChoices)).count i).sum := by
  let weight (row : ViewRow) : Nat :=
    if roundOf row = n then (indexesOf choiceCount row).count i else 0
  have halike : ∀ a b : ViewRow, (GroupLevel.components 3).leading a.key
      = (GroupLevel.components 3).leading b.key → weight a = weight b := by
    intro a b hab
    simp only [weight, indexesOf, roundOf_eq hab, selectionOf_eq hab]
  have hrows : ((rowsOf n rows).map fun row => (indexesOf choiceCount row).count i * row.count).sum
      = (rows.map fun row => weight row * row.count).sum := by
    simp only [rowsOf, sum_map_filter, weight, decide_eq_true_eq, ite_mul, Nat.zero_mul]
  rw [hrows, h, GroupLevel.sum_weight_mul_count halike, sum_map_filter, List.map_map]
  simp only [Function.comp_def, weight, PlainEntry.roundOf_row, indexesOf_row, decide_eq_true_eq]

end AnswerStatistics

/-- The counts of a round reach as far as the announced choices and the last one that was selected.
Each adds up how often the answers of the round list the choice; that is the number of answers that
selected it exactly if none of them lists it twice. -/
structure RoundStatistics.CountsChoices (round : RoundStatistics) (answers : List PlainEntry)
    (announced bound : Nat) : Prop where
  lt_length_iff : ∀ i, i < round.choiceCounts.length ↔
    i < announced ∨ ∃ e ∈ answers, ∃ choice ∈ e.chosen bound, i ≤ choice
  sum : ∀ i count, round.choiceCounts[i]? = some count →
    count = (answers.map fun e => (e.chosen bound).count i).sum
  exact_iff : ∀ i count, round.choiceCounts[i]? = some count →
    (count = (answers.countP fun e => i ∈ e.chosen bound) ↔
      ∀ e ∈ answers, (e.chosen bound).count i ≤ 1)
  /-- No count is greater then than the number of answers that are counted for some choice. -/
  le : ∀ i count, round.choiceCounts[i]? = some count →
    (∀ e ∈ answers, (e.chosen bound).count i ≤ 1) →
      count ≤ answers.countP fun e => e.chosen bound ≠ []

theorem RoundStatistics.countsChoices_of_sum {round : RoundStatistics} {answers : List PlainEntry}
    {announced bound : Nat}
    (hlength : ∀ i, i < round.choiceCounts.length ↔
      i < announced ∨ ∃ e ∈ answers, ∃ choice ∈ e.chosen bound, i ≤ choice)
    (hsum : ∀ i count, round.choiceCounts[i]? = some count →
      count = (answers.map fun e => (e.chosen bound).count i).sum) :
    round.CountsChoices answers announced bound := by
  have hexact : ∀ i count, round.choiceCounts[i]? = some count →
      (count = (answers.countP fun e => i ∈ e.chosen bound) ↔
        ∀ e ∈ answers, (e.chosen bound).count i ≤ 1) := by
    intro i count hcount
    rw [hsum i count hcount, ← sum_eq_countP_pos_iff]
    simp only [List.count_pos_iff]
  refine ⟨hlength, hsum, hexact, ?_⟩
  intro i count hcount honce
  rw [(hexact i count hcount).mpr honce]
  refine List.countP_mono_left fun e _ hi => ?_
  exact decide_eq_true (List.ne_nil_of_mem (of_decide_eq_true hi))

namespace AnswerStatistics

theorem CountsGroups.countsChoices (h : CountsGroups rows answers) (choiceCount : Option Nat)
    (n : Int) : ((rowsOf n rows).foldl (takeRow choiceCount)
        (freshRound choiceCount)).CountsChoices (answers.filter fun e => e.round = n)
      (choiceCount.getD 0) (choiceCount.getD maxChoices) := by
  refine RoundStatistics.countsChoices_of_sum (fun i => ?_) fun i count hcount => ?_
  · have hgroups := h.exists_iff (s := fun selection => ∃ choice ∈ selection.indexes, i ≤ choice)
      (q := fun e => ∃ choice ∈ e.chosen (choiceCount.getD maxChoices), i ≤ choice) n
      (choiceCount.getD maxChoices) fun e => by
        rw [decide_eq_true_iff, PlainEntry.selectionOf_row, PlainEntry.chosen]
    simp only [decide_eq_true_iff] at hgroups
    rw [lt_length_choiceCounts_foldl_iff, freshRound, List.length_replicate]
    simp only [indexesOf, hgroups, List.mem_filter, decide_eq_true_iff, and_assoc]
  · have hget := getD_choiceCounts_foldl choiceCount (rowsOf n rows) (freshRound choiceCount) i
    rw [List.getD_eq_getElem?_getD, hcount, Option.getD_some] at hget
    have hfresh : (freshRound choiceCount).choiceCounts.getD i 0 = 0 := by
      simp only [freshRound, List.getD_eq_getElem?_getD, List.getElem?_replicate]
      split <;> rfl
    rw [hget, h.sum_indexes, hfresh, Nat.zero_add]

end AnswerStatistics

namespace Engine

open IndexStore (Write)

variable {φ : Type} [ChangeFeed φ]

/-- Whatever has been written to the view of answers by content, round and choices, each round with
answers is listed, and its counts add up how often its answers list each choice. -/
theorem answerStatistics_countsChoices (engine : Engine φ) (ix : Indexer)
    (hix : engine.indexer View.byChoices.name = .ok ix) (hview : ix.view = View.byChoices)
    (writes : List Write) (hdistinct : ∀ w ∈ writes, w.Distinct)
    (hencoded : ∀ w ∈ writes, w.Encoded)
    (hstore : ix.store
      = writes.foldl IndexStore.write (.empty View.byChoices.name View.byChoices.reducer))
    (contentId : String) (choiceCount : Option Nat) :
    ∃ statistics, engine.answerStatistics contentId choiceCount = .ok statistics ∧
      (∀ n, (∃ round, (n, round) ∈ statistics.rounds.toList) ↔
        ix.store.current.answersOf contentId n ≠ []) ∧
      ∀ n round, (n, round) ∈ statistics.rounds.toList →
        round.CountsChoices (ix.store.current.answersOf contentId n) (choiceCount.getD 0)
          (choiceCount.getD 1024) := by
  obtain ⟨result, hstatistics, hrows, -⟩ :=
    exists_answerStatistics hix hview hdistinct hencoded hstore contentId choiceCount
  refine ⟨_, hstatistics, hrows.exists_round_iff contentId choiceCount, fun n round hround => ?_⟩
  rw [AnswerStatistics.eq_of_mem_rounds hround]
  exact hrows.countsChoices choiceCount n

/-- With four choices announced there are four counts, and the last one that was selected was
selected by two answers. -/
theorem answerStatistics_countsChoices_answered : ∃ statistics round,
    Answered.engine.answerStatistics "c" (some 4) = .ok statistics ∧
    (1, round) ∈ statistics.rounds.toList ∧
    3 < round.choiceCounts.length ∧ ¬4 < round.choiceCounts.length ∧
    ∀ count, round.choiceCounts[2]? = some count → count = 2 := by
  obtain ⟨statistics, hstatistics, hlisted, hrounds⟩ := answerStatistics_countsChoices
    Answered.engine Answered.indexer rfl rfl Answered.writes
    (by simp [Answered.writes, Write.Distinct]) Answered.encoded_writes rfl "c" (some 4)
  obtain ⟨round, hround⟩ := (hlisted 1).mpr (by decide +kernel)
  have hcounts := hrounds 1 round hround
  refine ⟨statistics, round, hstatistics, hround, (hcounts.lt_length_iff 3).mpr (by decide +kernel),
    ?_, fun count hcount => ?_⟩
  · rw [hcounts.lt_length_iff]
    decide +kernel
  · exact ((hcounts.exact_iff 2 count hcount).mpr (by decide +kernel)).trans (by decide +kernel)

/-- One answer that lists its choice twice. -/
def Answered.repeating : List Write :=
  [.applyBatch [Answered.answer "a" [.text "c", Answered.first, Answered.choices [0, 0]]] none]

/-- The choice of a single answer is counted twice. -/
theorem not_countsAnswers_repeating :
    (((Answered.indexerOf Answered.repeating).store.current.answersOf "c" 1).countP fun e =>
      0 ∈ e.chosen 1024) = 1 ∧
    ∃ statistics,
      (Answered.engineOf Answered.repeating).answerStatistics "c" none = .ok statistics ∧
      statistics.rounds.toList = [(1, ⟨[2], [⟨[0, 0], 1⟩], 0⟩)] := by
  exact ⟨by decide +kernel, _, rfl, by decide +kernel⟩

end Engine

end ViewIndex
