import ViewIndex.Engine
import ViewIndex.Feed.Memory
import ViewIndex.Proofs.Query.Rounds
import ViewIndex.Proofs.Tree.GroupPages

/-!
# Accounting for answers

An answer to a piece of content is an entry whose key begins with the id of the content. The second
component of the key gives its round and the third what it selected. The statistics account for
every answer once: among the abstentions of its round, among the combinations of its round, or not
at all if what it selected is out of range or no list of indexes.
-/

namespace ViewIndex

open ViewIndex.Tree (GroupLevel)

/-! ## Answers -/

namespace PlainEntry

/-- A component of the key as it is shown. -/
def shown? (e : PlainEntry) (i : Nat) : Option Json := e.key[i]?.map KeyPart.toJson

/-- The second component if it is shown as an integer of 64 bits, else zero. -/
def round (e : PlainEntry) : Int :=
  match e.shown? 1 with
  | some (.number (.int i)) => if -2 ^ 63 ≤ i ∧ i < 2 ^ 63 then i else 0
  | _ => 0

/-- The third component; a key that is too short counts as having null there. -/
def selected (e : PlainEntry) : Json := (e.shown? 2).getD .null

def Abstains (e : PlainEntry) : Prop := e.selected = .null ∨ e.selected = .array []

/-- The answer selected exactly these choices, and they are in range. -/
def Selects (e : PlainEntry) (bound : Nat) (choices : List Nat) : Prop :=
  choices ≠ [] ∧ (∀ choice ∈ choices, choice < bound) ∧
    e.selected = .array (choices.map Json.nat)

/-- The answer is not ignored. -/
def Counts (e : PlainEntry) (bound : Nat) : Prop := e.Abstains ∨ ∃ choices, e.Selects bound choices

instance (e : PlainEntry) : Decidable e.Abstains := inferInstanceAs (Decidable (_ ∨ _))

instance (e : PlainEntry) (bound : Nat) (choices : List Nat) :
    Decidable (e.Selects bound choices) := inferInstanceAs (Decidable (_ ∧ _))

end PlainEntry

theorem KeyPart.toJsonItems_eq_map (items : List KeyPart) :
    toJsonItems items = items.map toJson := by
  induction items with
  | nil => rfl
  | cons part rest ih => rw [toJsonItems, ih, List.map_cons]

theorem KeyPart.natAbs_lt_of_toJson {part : KeyPart} {i : Int}
    (h : part.toJson = .number (.int i)) : i.natAbs < integerBound := by
  cases part with
  | number x =>
      rw [toJson, numberToJson] at h
      split at h
      next =>
        split at h
        next hlt => cases h; exact hlt
        next => cases h
      next => split at h <;> cases h
  | _ => simp [toJson] at h

theorem Json.asNat?_eq_some_iff {value : Json} {n : Nat} :
    value.asNat? = some n ↔ value = .nat n := by
  unfold asNat?
  split
  next i =>
    rw [nat, number.injEq, Number.int.injEq]
    split
    next hle =>
      rw [Option.some.injEq]
      omega
    next hlt =>
      simp only [reduceCtorEq, false_iff]
      omega
  next hnot =>
    simp only [reduceCtorEq, false_iff]
    exact hnot n

theorem Json.mapM_asNat?_eq_some_iff {items : List Json} {choices : List Nat} :
    items.mapM asNat? = some choices ↔ items = choices.map nat := by
  induction items generalizing choices with
  | nil =>
      cases choices with
      | nil => simp
      | cons choice rest => simp
  | cons item items ih =>
      rw [List.mapM_cons]
      cases choices with
      | nil => cases item.asNat? <;> cases items.mapM asNat? <;> simp
      | cons choice rest =>
          rw [List.map_cons, List.cons.injEq, ← asNat?_eq_some_iff, ← ih]
          cases item.asNat? <;> cases items.mapM asNat? <;> simp

namespace Selection

variable {bound : Nat} {value : Json}

theorem ofJson_eq_abstention_iff :
    ofJson bound value = .abstention ↔ value = .null ∨ value = .array [] := by
  cases value with
  | null => simp [ofJson]
  | array items =>
      rw [ofJson]
      split
      next heq => simp [Json.mapM_asNat?_eq_some_iff.mp heq]
      next indexes hne heq =>
        have hitems : items ≠ [] := by
          rw [Json.mapM_asNat?_eq_some_iff.mp heq]
          simpa using hne
        split <;> simp [hitems]
      next heq =>
        have hitems : items ≠ [] := by
          rintro rfl
          cases heq
        simp [hitems]
  | _ => simp [ofJson]

theorem ofJson_eq_choices_iff {choices : List Nat} :
    ofJson bound value = .choices choices ↔
      choices ≠ [] ∧ (∀ choice ∈ choices, choice < bound) ∧
        value = .array (choices.map Json.nat) := by
  cases value with
  | array items =>
      rw [ofJson, Json.array.injEq, ← Json.mapM_asNat?_eq_some_iff]
      split
      next heq =>
        simp only [heq, reduceCtorEq, false_iff]
        rintro ⟨hne, -, hnil⟩
        exact hne (Option.some.inj hnil).symm
      next indexes hne heq =>
        rw [heq, Option.some.injEq]
        split
        next hall =>
          constructor
          · intro h
            cases h
            exact ⟨hne, by simpa using hall, rfl⟩
          · rintro ⟨-, -, rfl⟩
            rfl
        next hnot =>
          simp only [reduceCtorEq, false_iff]
          rintro ⟨-, hlt, rfl⟩
          exact hnot (by simpa using hlt)
      next heq => simp [heq]
  | _ => simp [ofJson]

end Selection

/-! ## Rows of answers -/

namespace PlainEntry

open AnswerStatistics (component? roundOf selectionOf)

theorem component?_row (e : PlainEntry) (i : Nat) : component? e.row.key i = e.shown? i := by
  rw [component?, row, Key.toJson, KeyPart.toJsonItems_eq_map, shown?]
  exact List.getElem?_map

theorem roundOf_row (e : PlainEntry) : roundOf e.row = e.round := by
  change ((component? e.row.key 1).bind Json.asInt64?).getD 0 = e.round
  rw [component?_row, round]
  split
  next i hshown =>
    obtain ⟨part, -, hpart⟩ := Option.map_eq_some_iff.mp hshown
    have hlt := KeyPart.natAbs_lt_of_toJson hpart
    rw [KeyPart.integerBound] at hlt
    have hupper : i < 0x8000000000000000 := by omega
    rw [hshown, Option.bind_some, Json.asInt64?, if_pos hupper, if_pos (by omega)]
    rfl
  next hnot =>
    cases hshown : e.shown? 1 with
    | none => rfl
    | some value =>
        cases value with
        | number n =>
            cases n with
            | int i => exact absurd hshown (hnot i)
            | real x => rfl
        | _ => rfl

theorem selectionOf_row (e : PlainEntry) (bound : Nat) :
    selectionOf bound e.row = .ofJson bound e.selected := by
  rw [selected, ← component?_row]
  rfl

theorem selectionOf_row_eq_abstention_iff (e : PlainEntry) (bound : Nat) :
    selectionOf bound e.row = .abstention ↔ e.Abstains := by
  rw [selectionOf_row, Selection.ofJson_eq_abstention_iff, Abstains]

theorem selectionOf_row_eq_choices_iff (e : PlainEntry) (bound : Nat) (choices : List Nat) :
    selectionOf bound e.row = .choices choices ↔ e.Selects bound choices := by
  rw [selectionOf_row, Selection.ofJson_eq_choices_iff, Selects]

theorem selectionOf_row_ne_ignored_iff (e : PlainEntry) (bound : Nat) :
    selectionOf bound e.row ≠ .ignored ↔ e.Counts bound := by
  simp only [Counts, ← selectionOf_row_eq_abstention_iff e bound, ← selectionOf_row_eq_choices_iff]
  cases selectionOf bound e.row <;> simp

instance (e : PlainEntry) (bound : Nat) : Decidable (e.Counts bound) :=
  decidable_of_iff _ (selectionOf_row_ne_ignored_iff e bound)

end PlainEntry

namespace AnswerStatistics

/-- The statistics list the rounds of the answers, in order, and in each round they account for
every answer that is not ignored. -/
structure Accounts (statistics : AnswerStatistics) (answers : List PlainEntry) (bound : Nat) :
    Prop where
  ascending : statistics.rounds.toList.Pairwise fun a b => a.1 < b.1
  mem_rounds : ∀ n, n ∈ statistics.rounds.toList.map Prod.fst ↔ ∃ e ∈ answers, e.round = n
  abstentions : ∀ n round, (n, round) ∈ statistics.rounds.toList →
    round.abstentions = answers.countP fun e => e.round = n ∧ e.Abstains
  combinations : ∀ n round, (n, round) ∈ statistics.rounds.toList → ∀ choices,
    ((round.combinations.filter fun combination => combination.choices = choices).map
        Combination.count).sum
      = answers.countP fun e => e.round = n ∧ e.Selects bound choices
  /-- No other combination is listed. -/
  selected : ∀ n round, (n, round) ∈ statistics.rounds.toList →
    ∀ combination ∈ round.combinations,
      ∃ e ∈ answers, e.round = n ∧ e.Selects bound combination.choices
  total : ∀ n round, (n, round) ∈ statistics.rounds.toList →
    round.abstentions + (round.combinations.map Combination.count).sum
      = answers.countP fun e => e.round = n ∧ e.Counts bound

/-! ## The counting query -/

/-- The query reads the answers as one range and groups them by three components. -/
theorem exists_plan (contentId : String) : ∃ range,
    (options contentId).plan (some .count) = .ok ⟨[range], .groups .count (.components 3)⟩ ∧
      (options contentId).Agree [range] [.startingWith [.text contentId]] := by
  have hfinite : KeyPart.allFinite [.text contentId] = true := rfl
  obtain ⟨bytes, -, hencode⟩ := Key.encode_of_isFinite hfinite
  have hkey : encodeQueryKey (.array [.text contentId]) = .ok ⟨bytes⟩ := by
    change Except.mapError _ (Key.encode [.text contentId]) = _
    rw [hencode]
    rfl
  have hranges : (options contentId).selectedRanges = .ok [.startingWith ⟨bytes⟩] := by
    change (do return [KeyRange.startingWith (← encodeQueryKey (.array [.text contentId]))]) = _
    rw [hkey]
    rfl
  refine ⟨.startingWith ⟨bytes⟩, QueryOptions.plan_eq_ok rfl rfl hranges, ?_⟩
  exact QueryOptions.Realizes.agree (fun e parts h => holds_startingWith h hencode) ⟨_, hencode⟩

/-- What the query selects are the answers. -/
theorem selects_iff (contentId : String) (e : PlainEntry) :
    (options contentId).selects (.startingWith [.text contentId]) e = true
      ↔ e.shown? 0 = some (.text contentId) := by
  rw [QueryOptions.selects, PlainEntry.shown?, beq_iff_eq]
  cases e.key with
  | nil => simp [Key.collate, KeyPart.collateItems]
  | cons first rest =>
      have hcollate : Key.collate ((first :: rest).take [KeyPart.text contentId].length)
          [.text contentId] = first.collate (.text contentId) := by
        simp [Key.collate, KeyPart.collateItems, Ordering.then_eq]
      rw [hcollate, List.getElem?_cons_zero, Option.map_some, Option.some.injEq]
      cases first with
      | text s => simp [KeyPart.collate, KeyPart.toJson]
      | number x =>
          have hshown : KeyPart.toJson (.number x) ≠ .text contentId := by
            rw [KeyPart.toJson, KeyPart.numberToJson]
            split
            · split <;> exact Json.noConfusion
            · split <;> exact Json.noConfusion
          simp [KeyPart.collate, KeyPart.rank, hshown]
      | bool b => cases b <;> simp [KeyPart.collate, KeyPart.rank, KeyPart.toJson]
      | null => simp [KeyPart.collate, KeyPart.rank, KeyPart.toJson]
      | array items => simp [KeyPart.collate, KeyPart.rank, KeyPart.toJson]

/-- Rows that count answers in groups. -/
def CountsGroups (rows : List ViewRow) (answers : List PlainEntry) : Prop :=
  rows = ((GroupLevel.components 3).runs (answers.map PlainEntry.row)).map
    (GroupLevel.components 3).countRow

/-- The rows that count the groups of a range show different keys. -/
theorem nodup_keys_countRow {tree : Tree} {r : Reducer} (h : tree.WellFormed r)
    (hdecodes : ∀ e ∈ tree.toList, ∃ parts, e.id.key.Decodes parts) (level : GroupLevel)
    (descending : Bool) (range : KeyRange) :
    (((level.runs ((tree.met descending range).map fun e => e.plain.row)).map
      level.countRow).map ViewRow.key).Nodup := by
  have hmet : ∀ e ∈ tree.met descending range, ∃ parts, e.id.key.Decodes parts :=
    fun e he => hdecodes e (Tree.mem_met.mp he).1
  have hrun : ∀ run ∈ tree.runs level descending range, ∃ e rest, run = e :: rest ∧
      ∃ parts, e.id.key.Decodes parts := by
    intro run hrun
    obtain ⟨e, rest, rfl⟩ := List.exists_cons_of_ne_nil (List.ne_nil_of_mem_splitBy hrun)
    have hmem := List.mem_flatten_of_mem hrun List.mem_cons_self
    rw [Tree.flatten_runs] at hmem
    exact ⟨e, rest, rfl, hmet e hmem⟩
  rw [GroupLevel.runs_map_row hmet, List.map_map, List.map_map, List.Nodup, List.pairwise_map]
  refine (Tree.pairwise_runs h level descending range).imp_of_mem ?_
  intro run later hmem hlater hprecedes heq
  obtain ⟨a, rest, rfl, parts, ha⟩ := hrun run hmem
  obtain ⟨b, others, rfl, more, hb⟩ := hrun later hlater
  -- Two rows that show the same key begin with entries of one label.
  have hsame : Tree.sameGroup level a b = true :=
    (GroupLevel.sameGroup_eq ha hb).trans (decide_eq_true heq.symm)
  exact (hprecedes a List.mem_cons_self b List.mem_cons_self).ne (of_decide_eq_true hsame).symm

/-- The rows of the query count the answers in groups, each group in one row. -/
theorem exists_rows {store : IndexStore} {contents : Contents} (hholds : store.Holds contents)
    (hcount : store.reducer = .count) (hencoded : contents.Encoded) (contentId : String) :
    ∃ result, store.current.query (some .count) (options contentId) = .ok result ∧
      CountsGroups result.rows ((store.current.entries.map Entry.plain).filter fun e =>
        e.shown? 0 = some (.text contentId)) ∧
      (result.rows.map ViewRow.key).Nodup := by
  have hwellFormed : store.current.tree.WellFormed .count := hcount ▸ hholds.reflects.wellFormed
  have hdecodes : ∀ e ∈ store.current.tree.toList, ∃ parts, e.id.key.Decodes parts :=
    fun e he => hholds.decodes hencoded he
  obtain ⟨range, hplan, hagree⟩ := exists_plan contentId
  obtain ⟨result, hquery, hrows⟩ := Snapshot.exists_groups hwellFormed hdecodes
    (fun _ => rfl) hplan rfl (.inr ⟨range, rfl⟩) (by decide)
  refine ⟨result, hquery, ?_, ?_⟩
  · have hmet := Snapshot.map_plain_flatMap_met hdecodes hagree
    have hanswers : (options contentId).selected [.startingWith [.text contentId]]
        (store.current.tree.toList.map Entry.plain)
          = (store.current.entries.map Entry.plain).filter fun e =>
              e.shown? 0 = some (.text contentId) := by
      rw [QueryOptions.selected, List.flatMap_singleton, hholds.entries_eq]
      apply List.filter_congr
      intro e _
      rw [Bool.eq_iff_iff, selects_iff, decide_eq_true_iff]
    rw [hanswers] at hmet
    rw [CountsGroups, hrows, ← hmet, List.map_map]
    rfl
  · rw [hrows, List.flatMap_singleton]
    exact nodup_keys_countRow hwellFormed hdecodes _ _ range

/-! ## Accounting -/

section Accounting

variable {rows : List ViewRow} {answers : List PlainEntry} {choiceCount : Option Nat} {n : Int}

/-- Round and selection are the same for all rows of a group. -/
theorem respects_selection (n : Int) (bound : Nat) (s : Selection → Bool) :
    (GroupLevel.components 3).Respects fun row =>
      s (selectionOf bound row) && decide (roundOf row = n) := by
  intro a b h
  dsimp only
  rw [roundOf_eq h, selectionOf_eq h]

theorem filter_rowsOf (n : Int) (p : ViewRow → Bool) (rows : List ViewRow) :
    (rowsOf n rows).filter p = rows.filter fun row => p row && decide (roundOf row = n) :=
  List.filter_filter

section Selections

variable {s : Selection → Bool} {q : PlainEntry → Prop}

/-- The rows of a round with certain selections count the answers of that round with them. -/
theorem CountsGroups.sum_count [DecidablePred q] (h : CountsGroups rows answers) (n : Int)
    (bound : Nat) (hq : ∀ e : PlainEntry, s (selectionOf bound e.row) = true ↔ q e) :
    (((rowsOf n rows).filter fun row => s (selectionOf bound row)).map ViewRow.count).sum
      = answers.countP fun e => e.round = n ∧ q e := by
  rw [filter_rowsOf, h, (respects_selection n bound s).sum_count, List.countP_map]
  apply List.countP_congr
  intro e _
  rw [Function.comp_apply, Bool.and_eq_true, hq, PlainEntry.roundOf_row, decide_eq_true_iff,
    decide_eq_true_iff, and_comm]

/-- There are such rows exactly if there are such answers. -/
theorem CountsGroups.exists_iff (h : CountsGroups rows answers) (n : Int) (bound : Nat)
    (hq : ∀ e : PlainEntry, s (selectionOf bound e.row) = true ↔ q e) :
    (∃ row ∈ rowsOf n rows, s (selectionOf bound row) = true)
      ↔ ∃ e ∈ answers, e.round = n ∧ q e := by
  have hrows := (respects_selection n bound s).exists_iff (answers.map PlainEntry.row)
  rw [← h] at hrows
  simp only [List.mem_map, exists_exists_and_eq_and, Bool.and_eq_true, decide_eq_true_iff, hq,
    PlainEntry.roundOf_row] at hrows
  simp only [rowsOf, List.mem_filter, decide_eq_true_iff, and_comm (a := _ = n), ← hrows]
  simp only [and_assoc, and_comm]

end Selections

theorem mem_rounds_iff (contentId : String) (result : ViewResult) :
    n ∈ (ofResult contentId choiceCount result).rounds.toList.map Prod.fst
      ↔ ∃ row, row ∈ rowsOf n result.rows := by
  rw [Std.ExtTreeMap.map_fst_toList_eq_keys, Std.ExtTreeMap.mem_keys,
    Std.ExtTreeMap.mem_iff_isSome_getElem?, getElem?_rounds]
  split
  next hnil => simp [hnil]
  next hne => simpa using List.exists_mem_of_ne_nil _ hne

theorem eq_of_mem_rounds {contentId : String} {result : ViewResult} {round : RoundStatistics}
    (h : (n, round) ∈ (ofResult contentId choiceCount result).rounds.toList) :
    round = (rowsOf n result.rows).foldl (takeRow choiceCount) (freshRound choiceCount) := by
  rw [Std.ExtTreeMap.mem_toList_iff_getElem?_eq_some, getElem?_rounds] at h
  split at h
  next => cases h
  next => exact (Option.some.inj h).symm

/-- Statistics of rows that count answers in groups account for the answers. -/
theorem CountsGroups.accounts (contentId : String) (choiceCount : Option Nat) {result : ViewResult}
    (h : CountsGroups result.rows answers) :
    (ofResult contentId choiceCount result).Accounts answers (choiceCount.getD maxChoices) where
  ascending := Std.ExtTreeMap.ordered_keys_toList.imp Std.compare_eq_lt.mp
  mem_rounds n := by
    have hexists := h.exists_iff (s := fun _ => true) (q := fun _ => True) n 0
      fun _ => iff_of_true rfl trivial
    rw [mem_rounds_iff]
    simpa using hexists
  abstentions n round hmem := by
    rw [eq_of_mem_rounds hmem, abstentions_foldl, freshRound, Nat.zero_add]
    exact h.sum_count (s := fun selection => selection = .abstention) n _ fun e =>
      decide_eq_true_iff.trans (e.selectionOf_row_eq_abstention_iff _)
  combinations n round hmem choices := by
    rw [eq_of_mem_rounds hmem, combinations_foldl, freshRound, List.nil_append, sum_combinations]
    exact h.sum_count (s := fun selection => selection = .choices choices) n _ fun e =>
      decide_eq_true_iff.trans (e.selectionOf_row_eq_choices_iff _ choices)
  selected n round hmem combination hcombination := by
    rw [eq_of_mem_rounds hmem, combinations_foldl, freshRound, List.nil_append, List.mem_filterMap]
      at hcombination
    obtain ⟨row, hrow, hsome⟩ := hcombination
    have hselection := (combination?_eq_some_iff.mp hsome).1
    exact (h.exists_iff (s := fun selection => selection = .choices combination.choices) n _
      fun e => decide_eq_true_iff.trans (e.selectionOf_row_eq_choices_iff _ _)).mp
      ⟨row, hrow, decide_eq_true hselection⟩
  total n round hmem := by
    rw [eq_of_mem_rounds hmem, accounted_foldl, freshRound, List.map_nil, List.sum_nil,
      Nat.zero_add, Nat.zero_add]
    exact h.sum_count (s := fun selection => selection ≠ .ignored) n _ fun e =>
      decide_eq_true_iff.trans (e.selectionOf_row_ne_ignored_iff _)

/-- A round is listed exactly if it has answers. -/
theorem CountsGroups.exists_round_iff (contentId : String) (choiceCount : Option Nat)
    {result : ViewResult} (h : CountsGroups result.rows answers) (n : Int) :
    (∃ round, (n, round) ∈ (ofResult contentId choiceCount result).rounds.toList) ↔
      (answers.filter fun e => e.round = n) ≠ [] := by
  have hmem := (h.accounts contentId choiceCount).mem_rounds n
  rw [List.mem_map] at hmem
  simpa [List.filter_eq_nil_iff] using hmem

end Accounting

end AnswerStatistics

/-! ## Engines -/

/-- The answers of one round to a piece of content. -/
def Snapshot.answersOf (snapshot : Snapshot) (contentId : String) (n : Int) : List PlainEntry :=
  ((snapshot.entries.map Entry.plain).filter fun e =>
    e.shown? 0 = some (.text contentId)).filter fun e => e.round = n

namespace Engine

open IndexStore (Write)

variable {φ : Type} [ChangeFeed φ]

/-- An engine answers what the published state of the view answers. -/
theorem query_eq {engine : Engine φ} {view : String} {ix : Indexer} {options : QueryOptions}
    {result : ViewResult} (hix : engine.indexer view = .ok ix)
    (hquery : ix.store.current.query ix.view.reducer options = .ok result) :
    engine.query view options
      = .ok { result with stale := engine.config.staleThreshold < ix.lag engine.feed } := by
  simp only [query, hix, hquery, bind, Except.bind]
  rfl

/-- The statistics are those of rows that count the answers in groups. -/
theorem exists_answerStatistics {engine : Engine φ} {ix : Indexer}
    (hix : engine.indexer View.byChoices.name = .ok ix) (hview : ix.view = View.byChoices)
    {writes : List Write} (hdistinct : ∀ w ∈ writes, w.Distinct)
    (hencoded : ∀ w ∈ writes, w.Encoded)
    (hstore : ix.store
      = writes.foldl IndexStore.write (.empty View.byChoices.name View.byChoices.reducer))
    (contentId : String) (choiceCount : Option Nat) : ∃ result : ViewResult,
      engine.answerStatistics contentId choiceCount
        = .ok (.ofResult contentId choiceCount result) ∧
      AnswerStatistics.CountsGroups result.rows ((ix.store.current.entries.map Entry.plain).filter
        fun e => e.shown? 0 = some (.text contentId)) ∧
      (result.rows.map ViewRow.key).Nodup := by
  obtain ⟨hholds, hreducer⟩ :=
    (IndexStore.holds_empty View.byChoices.name View.byChoices.reducer).foldl_write hdistinct
  rw [← hstore] at hholds hreducer
  obtain ⟨result, hquery, hrows⟩ := AnswerStatistics.exists_rows hholds hreducer
    (Contents.encoded_empty.foldl_write hencoded) contentId
  rw [answerStatistics, query_eq hix (by rw [hview]; exact hquery)]
  exact ⟨_, rfl, hrows⟩

/-- Whatever has been written to the view of answers by content, round and choices, the statistics
of a piece of content account for the answers to it. -/
theorem answerStatistics_accounts (engine : Engine φ) (ix : Indexer)
    (hix : engine.indexer View.byChoices.name = .ok ix) (hview : ix.view = View.byChoices)
    (writes : List Write) (hdistinct : ∀ w ∈ writes, w.Distinct)
    (hencoded : ∀ w ∈ writes, w.Encoded)
    (hstore : ix.store
      = writes.foldl IndexStore.write (.empty View.byChoices.name View.byChoices.reducer))
    (contentId : String) (choiceCount : Option Nat) :
    ∃ statistics, engine.answerStatistics contentId choiceCount = .ok statistics ∧
      statistics.contentId = contentId ∧
      statistics.Accounts
        ((ix.store.current.entries.map Entry.plain).filter fun e =>
          e.shown? 0 = some (.text contentId))
        (choiceCount.getD 1024) := by
  obtain ⟨result, hstatistics, hrows, -⟩ :=
    exists_answerStatistics hix hview hdistinct hencoded hstore contentId choiceCount
  exact ⟨_, hstatistics, rfl, hrows.accounts contentId choiceCount⟩

namespace Answered

/-- The update of an answer whose content, round and choices are given. -/
def answer (docId : String) (parts : Key) : DocUpdate :=
  ⟨docId, [((parts.encode.toOption).getD default, .null)]⟩

def choices (indexes : List Nat) : KeyPart :=
  .array (indexes.map fun index => .number (Binary64.ofInt index))

def first : KeyPart := .number (Binary64.ofInt 1)

/-- Two answers that selected the same choices, one that abstained, one whose round is no integer
and whose choice is out of range, and one to another piece of content. -/
def writes : List Write :=
  [.applyBatch [answer "a" [.text "c", first, choices [0, 2]],
    answer "b" [.text "c", first, choices [0, 2]], answer "d" [.text "c", first, .null],
    answer "e" [.text "c", .text "x", choices [1024]],
    answer "f" [.text "other", first, choices [0, 2]]] none]

def indexer : Indexer :=
  { Indexer.create View.byChoices {} none with
    store := writes.foldl IndexStore.write
      (.empty View.byChoices.name View.byChoices.reducer) }

def engine : Engine MemoryStore :=
  Engine.put { feed := .empty 1 0, config := {} } indexer

/-- The same indexer over other answers. -/
def indexerOf (writes : List Write) : Indexer :=
  { indexer with
    store := writes.foldl IndexStore.write
      (.empty View.byChoices.name View.byChoices.reducer) }

def engineOf (writes : List Write) : Engine MemoryStore :=
  Engine.put { feed := .empty 1 0, config := {} } (indexerOf writes)

theorem encoded_writes : ∀ w ∈ writes, w.Encoded := by
  have hanswer (docId : String) (parts : Key) (h : KeyPart.allFinite parts = true) :
      (answer docId parts).Encoded := by
    intro entry hentry
    obtain ⟨bytes, -, hencode⟩ := Key.encode_of_isFinite h
    refine ⟨parts, ?_⟩
    rw [List.mem_singleton.mp hentry, hencode]
    rfl
  simp only [writes, List.forall_mem_singleton, Write.Encoded, List.forall_mem_cons]
  exact ⟨hanswer _ _ (by decide), hanswer _ _ (by decide), hanswer _ _ (by decide),
    hanswer _ _ (by decide), hanswer _ _ (by decide)⟩

/-- The answer whose choice is out of range has a round, and is ignored there. -/
theorem answerStatistics_accounts_answered : ∃ statistics,
    engine.answerStatistics "c" none = .ok statistics ∧
    0 ∈ statistics.rounds.toList.map Prod.fst ∧
    (∀ round, (0, round) ∈ statistics.rounds.toList →
      round.abstentions + (round.combinations.map Combination.count).sum = 0) ∧
    ∀ round, (1, round) ∈ statistics.rounds.toList →
      round.abstentions = 1 ∧
      ((round.combinations.filter fun combination => combination.choices = [0, 2]).map
        Combination.count).sum = 2 ∧
      round.abstentions + (round.combinations.map Combination.count).sum = 3 := by
  obtain ⟨statistics, hstatistics, -, haccounts⟩ := answerStatistics_accounts engine
    indexer rfl rfl writes (by simp [writes, Write.Distinct]) encoded_writes rfl "c" none
  refine ⟨statistics, hstatistics, (haccounts.mem_rounds 0).mpr (by decide +kernel),
    fun round hround => (haccounts.total 0 round hround).trans (by decide +kernel),
    fun round hround => ⟨(haccounts.abstentions 1 round hround).trans (by decide +kernel),
      (haccounts.combinations 1 round hround _).trans (by decide +kernel),
      (haccounts.total 1 round hround).trans (by decide +kernel)⟩⟩

end Answered

end Engine

end ViewIndex
