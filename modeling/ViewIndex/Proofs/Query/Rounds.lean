import ViewIndex.Proofs.Query.Grouping
import ViewIndex.Query.Statistics

/-!
# Rounds of statistics

The rows of the counting query are taken into the statistics one after the other. A round has what
the rows of that round add up to. Every row counts a group of entries, and entries of one group are
alike in round and selection, so sums over the rows are numbers of entries.
-/

namespace ViewIndex

open ViewIndex.Tree (GroupLevel)

/-- The number of entries that a row counts. -/
def ViewRow.count (row : ViewRow) : Nat := row.value.asNat?.getD 0

/-! ## Sums over groups -/

namespace Tree.GroupLevel

variable {level : GroupLevel} {rows run : List ViewRow}

/-- Rows of one group have the property all of them or none. -/
def Respects (level : GroupLevel) (p : ViewRow → Bool) : Prop :=
  ∀ a b : ViewRow, level.leading a.key = level.leading b.key → p a = p b

theorem leading_leading (level : GroupLevel) (key : Json) :
    level.leading (level.leading key) = level.leading key := by
  cases level with
  | wholeKey => rfl
  | components count =>
      cases key with
      | array items => simp [leading]
      | _ => rfl

theorem count_countRow (level : GroupLevel) (run : List ViewRow) :
    (level.countRow run).count = run.length := by
  simp [countRow, ViewRow.count, Json.nat, Json.asNat?]

/-- All rows of a run begin like the row that counts them. -/
theorem leading_countRow (hrun : run ∈ level.runs rows) {row : ViewRow} (hrow : row ∈ run) :
    level.leading row.key = level.leading (level.countRow run).key := by
  have halike := List.isChain_of_mem_splitBy hrun
  cases run with
  | nil => cases hrow
  | cons first rest =>
      have hchain : (first :: rest).IsChain fun a b => level.leading b.key = level.leading a.key :=
        halike.imp fun _ _ => of_decide_eq_true
      have : IsTrans ViewRow fun a b => level.leading b.key = level.leading a.key :=
        ⟨fun _ _ _ hab hbc => hbc.trans hab⟩
      have hfirst := (List.pairwise_cons.mp (List.isChain_iff_pairwise.mp hchain)).1
      rw [countRow, List.head?_cons, Option.map_some, Option.getD_some, leading_leading]
      rcases List.mem_cons.mp hrow with rfl | hrest
      · rfl
      · exact hfirst row hrest

theorem Respects.eq_countRow {p : ViewRow → Bool} (h : level.Respects p)
    (hrun : run ∈ level.runs rows) {row : ViewRow} (hrow : row ∈ run) :
    p row = p (level.countRow run) :=
  h _ _ (leading_countRow hrun hrow)

/-- Rows that count groups, weighted alike within each group, together have the weight of all rows
that are counted. -/
theorem sum_weight_mul_count {weight : ViewRow → Nat}
    (h : ∀ a b : ViewRow, level.leading a.key = level.leading b.key → weight a = weight b)
    (rows : List ViewRow) :
    (((level.runs rows).map level.countRow).map fun row => weight row * row.count).sum
      = (rows.map weight).sum := by
  have hruns : ∀ runs : List (List ViewRow),
      (∀ run ∈ runs, ∀ row ∈ run, weight row = weight (level.countRow run)) →
      ((runs.map level.countRow).map fun row => weight row * row.count).sum
        = (runs.flatten.map weight).sum := by
    intro runs hruns
    induction runs with
    | nil => rfl
    | cons run rest ih =>
        obtain ⟨hrun, hrest⟩ := List.forall_mem_cons.mp hruns
        have hsum : (run.map weight).sum = weight (level.countRow run) * run.length := by
          rw [List.map_congr_left hrun, List.map_const', List.sum_replicate_nat, Nat.mul_comm]
        rw [List.flatten_cons, List.map_append, List.sum_append, ← ih hrest, hsum, List.map_cons,
          List.map_cons, List.sum_cons, count_countRow]
  have hflatten : (level.runs rows).flatten = rows := List.flatten_splitBy _ rows
  rw [hruns _ fun run hrun row hrow => h _ _ (leading_countRow hrun hrow), hflatten]

/-- The rows that count groups with a property together count the rows that have it. -/
theorem Respects.sum_count {p : ViewRow → Bool} (h : level.Respects p) (rows : List ViewRow) :
    ((((level.runs rows).map level.countRow).filter p).map ViewRow.count).sum = rows.countP p := by
  have halike : ∀ a b : ViewRow, level.leading a.key = level.leading b.key →
      (if p a then 1 else 0) = if p b then 1 else 0 := by
    intro a b hab
    rw [h a b hab]
  have hsum := sum_weight_mul_count halike rows
  simp only [ite_mul, Nat.one_mul, Nat.zero_mul] at hsum
  rw [sum_map_filter, hsum, ← sum_map_filter p fun _ => 1, List.map_const', List.sum_replicate_nat,
    Nat.mul_one, List.countP_eq_length_filter]

/-- Some group has the property exactly if some row has it. -/
theorem Respects.exists_iff {p : ViewRow → Bool} (h : level.Respects p) (rows : List ViewRow) :
    (∃ row ∈ (level.runs rows).map level.countRow, p row = true) ↔ ∃ row ∈ rows, p row = true := by
  constructor
  · rintro ⟨_, hmem, hp⟩
    obtain ⟨run, hrun, rfl⟩ := List.mem_map.mp hmem
    obtain ⟨row, hrow⟩ := List.exists_mem_of_ne_nil run (List.ne_nil_of_mem_splitBy hrun)
    refine ⟨row, ?_, (h.eq_countRow hrun hrow).trans hp⟩
    rw [← List.flatten_splitBy (fun a b => decide (level.leading b.key = level.leading a.key)) rows]
    exact List.mem_flatten_of_mem hrun hrow
  · rintro ⟨row, hrow, hp⟩
    rw [← List.flatten_splitBy (fun a b => decide (level.leading b.key = level.leading a.key)) rows]
      at hrow
    obtain ⟨run, hrun, hmem⟩ := List.mem_flatten.mp hrow
    exact ⟨_, List.mem_map_of_mem hrun, (h.eq_countRow hrun hmem).symm.trans hp⟩

end Tree.GroupLevel

/-! ## Rows of one round -/

namespace AnswerStatistics

variable {choiceCount : Option Nat}

/-- A component of the key that a row shows. -/
def component? (key : Json) (i : Nat) : Option Json := key.asArray?.bind (·[i]?)

theorem component?_leading {count i : Nat} (h : i < count) (key : Json) :
    component? ((GroupLevel.components count).leading key) i = component? key i := by
  cases key with
  | array items => simp [component?, GroupLevel.leading, Json.asArray?, h]
  | _ => rfl

/-- Rows whose keys begin with the same three components are of one round. -/
theorem roundOf_eq {a b : ViewRow} (h : (GroupLevel.components 3).leading a.key
    = (GroupLevel.components 3).leading b.key) : roundOf a = roundOf b := by
  have hcomponent : component? a.key 1 = component? b.key 1 := by
    rw [← component?_leading (by decide : 1 < 3), h, component?_leading (by decide)]
  exact congrArg (fun shown : Option Json => (shown.bind Json.asInt64?).getD 0) hcomponent

theorem selectionOf_eq {a b : ViewRow} (h : (GroupLevel.components 3).leading a.key
    = (GroupLevel.components 3).leading b.key) (bound : Nat) :
    selectionOf bound a = selectionOf bound b := by
  have hcomponent : component? a.key 2 = component? b.key 2 := by
    rw [← component?_leading (by decide : 2 < 3), h, component?_leading (by decide)]
  exact congrArg (fun shown : Option Json => Selection.ofJson bound (shown.getD .null)) hcomponent

/-- The statistics of a round before any row is taken in. -/
def freshRound (choiceCount : Option Nat) : RoundStatistics :=
  ⟨List.replicate (choiceCount.getD 0) 0, [], 0⟩

/-- Takes a row into the statistics of its round. -/
def takeRow (choiceCount : Option Nat) (round : RoundStatistics) (row : ViewRow) :
    RoundStatistics :=
  round.add (selectionOf (choiceCount.getD maxChoices) row) row.count

/-- The rows of one round. -/
def rowsOf (n : Int) (rows : List ViewRow) : List ViewRow := rows.filter fun row => roundOf row = n

theorem getElem?_foldl_addRow (rows : List ViewRow) (rounds : Std.ExtTreeMap Int RoundStatistics)
    (n : Int) : (rows.foldl (addRow choiceCount) rounds)[n]?
      = if rowsOf n rows = [] then rounds[n]?
        else some ((rowsOf n rows).foldl (takeRow choiceCount)
          (rounds.getD n (freshRound choiceCount))) := by
  induction rows generalizing rounds with
  | nil => rfl
  | cons row rest ih =>
      have hinsert : addRow choiceCount rounds row = rounds.insert (roundOf row)
          (takeRow choiceCount (rounds.getD (roundOf row) (freshRound choiceCount)) row) := rfl
      rw [List.foldl_cons, ih, hinsert, Std.ExtTreeMap.getElem?_insert, Std.ExtTreeMap.getD_insert]
      by_cases hround : roundOf row = n
      · have hown : rowsOf n (row :: rest) = row :: rowsOf n rest :=
          List.filter_cons_of_pos (by simpa using hround)
        rw [hown, if_neg (List.cons_ne_nil _ _), List.foldl_cons]
        simp only [hround, Std.ReflOrd.compare_self, if_true]
        split
        next hnil => rw [hnil, List.foldl_nil]
        next => rfl
      · have hown : rowsOf n (row :: rest) = rowsOf n rest :=
          List.filter_cons_of_neg (by simpa using hround)
        have hne : compare (roundOf row) n ≠ .eq :=
          fun heq => hround (Std.LawfulEqCmp.eq_of_compare heq)
        rw [hown, if_neg hne, if_neg hne]

/-- A round is there if there are rows of it, and has what they add up to. -/
theorem getElem?_rounds (contentId : String) (result : ViewResult) (n : Int) :
    (ofResult contentId choiceCount result).rounds[n]?
      = if rowsOf n result.rows = [] then none
        else some ((rowsOf n result.rows).foldl (takeRow choiceCount) (freshRound choiceCount)) := by
  rw [ofResult, getElem?_foldl_addRow, Std.ExtTreeMap.getElem?_empty, Std.ExtTreeMap.getD_empty]

theorem abstentions_foldl (rows : List ViewRow) (round : RoundStatistics) :
    (rows.foldl (takeRow choiceCount) round).abstentions = round.abstentions
      + ((rows.filter fun row =>
          selectionOf (choiceCount.getD maxChoices) row = .abstention).map ViewRow.count).sum := by
  induction rows generalizing round with
  | nil => rfl
  | cons row rest ih =>
      rw [List.foldl_cons, ih, takeRow]
      cases hselection : selectionOf (choiceCount.getD maxChoices) row with
      | abstention =>
          rw [List.filter_cons_of_pos (by simpa using hselection), List.map_cons, List.sum_cons,
            ← Nat.add_assoc]
          rfl
      | choices indexes => rw [List.filter_cons_of_neg (by simp [hselection])]; rfl
      | ignored => rw [List.filter_cons_of_neg (by simp [hselection])]; rfl

/-- The combination that a row is listed as. -/
def combination? (choiceCount : Option Nat) (row : ViewRow) : Option Combination :=
  match selectionOf (choiceCount.getD maxChoices) row with
  | .choices indexes => some ⟨indexes, row.count⟩
  | _ => none

theorem combinations_foldl (rows : List ViewRow) (round : RoundStatistics) :
    (rows.foldl (takeRow choiceCount) round).combinations
      = round.combinations ++ rows.filterMap (combination? choiceCount) := by
  induction rows generalizing round with
  | nil => exact (List.append_nil _).symm
  | cons row rest ih =>
      rw [List.foldl_cons, ih, takeRow, List.filterMap_cons, combination?]
      cases selectionOf (choiceCount.getD maxChoices) row with
      | abstention => rfl
      | choices indexes => exact List.append_assoc _ _ _
      | ignored => rfl

theorem combination?_eq_some_iff {row : ViewRow} {combination : Combination} :
    combination? choiceCount row = some combination ↔
      selectionOf (choiceCount.getD maxChoices) row = .choices combination.choices ∧
        row.count = combination.count := by
  unfold combination?
  obtain ⟨choices, count⟩ := combination
  split
  next indexes heq => simp [heq]
  next hnot =>
    constructor
    · intro h
      cases h
    · rintro ⟨hselection, -⟩
      exact absurd hselection (hnot choices)

/-- The combinations of one list of choices count the rows that selected it. -/
theorem sum_combinations (rows : List ViewRow) (choices : List Nat) :
    (((rows.filterMap (combination? choiceCount)).filter
        fun combination => combination.choices = choices).map Combination.count).sum
      = ((rows.filter fun row =>
          selectionOf (choiceCount.getD maxChoices) row = .choices choices).map
            ViewRow.count).sum := by
  induction rows with
  | nil => rfl
  | cons row rest ih =>
      cases hcombination : combination? choiceCount row with
      | none =>
          have hnot : ¬ selectionOf (choiceCount.getD maxChoices) row = .choices choices := by
            intro hselection
            have hsome : combination? choiceCount row = some ⟨choices, row.count⟩ :=
              combination?_eq_some_iff.mpr ⟨hselection, rfl⟩
            rw [hcombination] at hsome
            cases hsome
          rw [List.filterMap_cons_none hcombination, ih,
            List.filter_cons_of_neg (by simpa using hnot)]
      | some combination =>
          obtain ⟨hselection, hcount⟩ := combination?_eq_some_iff.mp hcombination
          rw [List.filterMap_cons_some hcombination]
          by_cases hchoices : combination.choices = choices
          · rw [List.filter_cons_of_pos (by simpa using hchoices),
              List.filter_cons_of_pos (by simpa [hchoices] using hselection), List.map_cons,
              List.sum_cons, List.map_cons, List.sum_cons, ih, hcount]
          · rw [List.filter_cons_of_neg (by simpa using hchoices), ih,
              List.filter_cons_of_neg (by simpa [hselection] using hchoices)]

/-- Abstentions and combinations together count all rows but those that are ignored. -/
theorem accounted_foldl (rows : List ViewRow) (round : RoundStatistics) :
    (rows.foldl (takeRow choiceCount) round).abstentions
        + ((rows.foldl (takeRow choiceCount) round).combinations.map Combination.count).sum
      = round.abstentions + (round.combinations.map Combination.count).sum
        + ((rows.filter fun row =>
            selectionOf (choiceCount.getD maxChoices) row ≠ .ignored).map ViewRow.count).sum := by
  induction rows generalizing round with
  | nil => rfl
  | cons row rest ih =>
      rw [List.foldl_cons, ih, takeRow, RoundStatistics.add.eq_def]
      cases hselection : selectionOf (choiceCount.getD maxChoices) row with
      | abstention =>
          rw [List.filter_cons_of_pos (by simp [hselection]), List.map_cons, List.sum_cons]
          dsimp only
          omega
      | choices indexes =>
          rw [List.filter_cons_of_pos (by simp [hselection]), List.map_cons, List.sum_cons]
          simp only [List.map_append, List.sum_append, List.map_cons, List.map_nil, List.sum_cons,
            List.sum_nil]
          omega
      | ignored => rw [List.filter_cons_of_neg (by simp [hselection])]

end AnswerStatistics

end ViewIndex
