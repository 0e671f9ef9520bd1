import ViewIndex.Proofs.Key.Shown
import ViewIndex.Proofs.Query.Answers
import ViewIndex.Proofs.Tree.GroupCuts

/-!
# Answers to queries for groups

With the counting reducer, the groups of a query are the runs of the rows that the query has when
nothing is reduced: rows that follow one another and whose keys begin alike. The row of a group
shows what the keys have in common and how many rows there are. A page has as many groups as the
limit says behind those that are skipped, unless the two add up to more than a word holds: then the
sum wraps around, and the page ends before it has a group to show.
-/

namespace ViewIndex

open ViewIndex.Tree (GroupLevel)

theorem wordSum_of_lt {a b : Nat} (h : a + b < UInt64.size) : wordSum a b = a + b :=
  Nat.mod_eq_of_lt h

/-- What is left of a sum that does not fit into a word is at most what was added. -/
theorem wordSum_le {a b : Nat} (ha : a < UInt64.size) (h : UInt64.size ≤ a + b) :
    wordSum a b ≤ b := by
  rw [wordSum, UInt64.size]
  rw [UInt64.size] at ha h
  omega

/-- Runs of images are images of runs. -/
theorem splitBy_map {α β : Type} (f : α → β) (related : β → β → Bool) (items : List α) :
    (items.map f).splitBy related
      = (items.splitBy fun a b => related (f a) (f b)).map (List.map f) := by
  have hflatten : items.map f
      = ((items.splitBy fun a b => related (f a) (f b)).map (List.map f)).flatten := by
    rw [← List.map_flatten, List.flatten_splitBy]
  rw [List.splitBy_eq_iff]
  refine ⟨hflatten, ?_, ?_, ?_⟩
  · intro hnil
    obtain ⟨run, hrun, hmap⟩ := List.mem_map.mp hnil
    exact List.ne_nil_of_mem_splitBy hrun (List.map_eq_nil_iff.mp hmap)
  · intro run hrun
    obtain ⟨source, hsource, rfl⟩ := List.mem_map.mp hrun
    rw [List.isChain_map]
    exact List.isChain_of_mem_splitBy hsource
  · rw [List.isChain_map]
    refine (List.isChain_getLast_head_splitBy _ items).imp ?_
    rintro a b ⟨ha, hb, hrelated⟩
    refine ⟨by simpa using ha, by simpa using hb, ?_⟩
    rw [List.getLast_map, List.head_map]
    exact hrelated

/-- Runs depend on the relation only where it is asked about. -/
theorem splitBy_congr {α : Type} {items : List α} {r s : α → α → Bool}
    (h : ∀ a ∈ items, ∀ b ∈ items, r a b = s a b) : items.splitBy r = items.splitBy s := by
  have hloop (rest : List α) (a : α) (run : List α) (runs : List (List α))
      (hrest : ∀ x ∈ a :: rest, ∀ y ∈ a :: rest, r x y = s x y) :
      List.splitBy.loop r rest a run runs = List.splitBy.loop s rest a run runs := by
    induction rest generalizing a run runs with
    | nil => rfl
    | cons b rest ih =>
        have htail := fun x hx y hy =>
          hrest x (List.mem_cons_of_mem _ hx) y (List.mem_cons_of_mem _ hy)
        rw [List.splitBy.loop, List.splitBy.loop, hrest a List.mem_cons_self b (by simp)]
        split
        · exact ih b _ _ htail
        · exact ih b _ _ htail
  cases items with
  | nil => rfl
  | cons a rest => exact hloop rest a [] [] h

namespace Tree.GroupLevel

/-- What the key of a row has in common with those of its group. -/
def leading (level : GroupLevel) (key : Json) : Json :=
  match level, key with
  | .components count, .array items => .array (items.take count)
  | _, key => key

/-- The rows of each group. -/
def runs (level : GroupLevel) (rows : List ViewRow) : List (List ViewRow) :=
  rows.splitBy fun a b => decide (level.leading b.key = level.leading a.key)

/-- The row that counts those of a group. -/
def countRow (level : GroupLevel) (run : List ViewRow) : ViewRow where
  key := (run.head?.map fun row => level.leading row.key).getD .null
  value := .nat run.length
  docId := none

theorem leading_toJson (level : GroupLevel) (parts : Key) :
    level.leading parts.toJson = (level.cut parts).toJson := by
  cases level with
  | wholeKey => rfl
  | components count => exact congrArg Json.array (KeyPart.toJsonItems_take parts count).symm

variable {level : GroupLevel}

/-- Rows are of one group exactly if their entries are. -/
theorem sameGroup_eq {a b : Entry} {parts others : Key} (ha : a.id.key.Decodes parts)
    (hb : b.id.key.Decodes others) : sameGroup level a b
      = decide (level.leading b.plain.row.key = level.leading a.plain.row.key) := by
  have hlabelA := decodes_label level ha
  have hlabelB := decodes_label level hb
  rw [PlainEntry.row, PlainEntry.row, ha.plain_key, hb.plain_key, leading_toJson, leading_toJson,
    sameGroup, decide_eq_decide]
  exact (hlabelB.toJson_eq_iff hlabelA).symm

theorem runs_map_row {entries : List Entry}
    (hdecodes : ∀ e ∈ entries, ∃ parts, e.id.key.Decodes parts) :
    level.runs (entries.map fun e => e.plain.row)
      = (entries.splitBy (sameGroup level)).map (List.map fun e => e.plain.row) := by
  rw [runs, splitBy_map]
  congr 1
  apply splitBy_congr
  intro a ha b hb
  obtain ⟨parts, hparts⟩ := hdecodes a ha
  obtain ⟨others, hothers⟩ := hdecodes b hb
  exact (sameGroup_eq hparts hothers).symm

end Tree.GroupLevel

namespace QueryOptions

/-- The same query for entries, all of them. -/
def ungrouped (options : QueryOptions) : QueryOptions :=
  { options with
    reduce := some false
    group := false
    groupLevel := none
    skip := 0
    limit := none }

variable {options : QueryOptions} {reducer : Option Reducer} {plan : Plan}

theorem shape_eq_groups {shape : RowShape} {r : Reducer} (hreduce : options.reduce ≠ some false)
    (h : options.shape (some r) = .ok shape) : shape = .groups r options.grouping := by
  have hon : options.reduce.getD (some r).isSome = true := by
    cases hcase : options.reduce with
    | none => rfl
    | some b =>
        cases b with
        | false => exact absurd hcase hreduce
        | true => rfl
  simp only [QueryOptions.shape, hon, if_true] at h
  cases h
  rfl

/-- Of groups those of a page: as many as the limit and what is skipped add up to, without those
that are skipped. -/
def groupPage {α : Type} (options : QueryOptions) (groups : List α) : List α :=
  (limited (options.limit.map (wordSum · options.skip)) groups).drop options.skip

theorem groupPage_map {α β : Type} (options : QueryOptions) (f : α → β) (groups : List α) :
    options.groupPage (groups.map f) = (options.groupPage groups).map f := by
  rw [groupPage, limited_map, ← List.map_drop, groupPage]

/-- A page of no groups at all has none, whatever is skipped. -/
theorem groupPage_of_isFull {α : Type} (hfull : options.isFull 0 = true) (groups : List α) :
    options.groupPage groups = [] := by
  rw [isFull] at hfull
  rw [groupPage]
  cases hlimit : options.limit with
  | none => rw [hlimit] at hfull; cases hfull
  | some limit =>
      rw [hlimit] at hfull
      obtain rfl : limit = 0 := Nat.le_zero.mp (of_decide_eq_true hfull)
      have hwraps : wordSum 0 options.skip ≤ options.skip := by
        rw [wordSum, Nat.zero_add]
        exact Nat.mod_le _ _
      exact List.drop_eq_nil_of_le (Nat.le_trans (List.length_take_le _ _) hwraps)

/-- A sum that does not fit into a word ends the page while it still skips groups. -/
theorem groupPage_eq {α : Type} (hword : ∀ limit ∈ options.limit, limit < UInt64.size)
    (groups : List α) : options.groupPage groups
      = if options.overflows then [] else limited options.limit (groups.drop options.skip) := by
  rw [groupPage, overflows]
  cases hlimit : options.limit with
  | none => rfl
  | some limit =>
      rw [Option.map_some, Option.any_some]
      split
      next hover =>
        have hwraps := wordSum_le (hword limit hlimit) (of_decide_eq_true hover)
        exact List.drop_eq_nil_of_le (Nat.le_trans (List.length_take_le _ _) hwraps)
      next hfits =>
        have hsum : ¬ UInt64.size ≤ limit + options.skip := fun hle => hfits (decide_eq_true hle)
        have hsame := wordSum_of_lt (Nat.lt_of_not_le hsum)
        rw [hsame, ← drop_limited]
        rfl

/-- If a query is accepted, so is the same query for entries. -/
theorem plan_ungrouped (hkeys : options.keys = none) (hcontinuation : options.continuation = none)
    (h : options.plan reducer = .ok plan) :
    options.ungrouped.plan reducer = .ok ⟨plan.ranges, .entries⟩ := by
  obtain ⟨-, hcheck, hranges⟩ := parts_of_plan h hcontinuation
  have hcheck' : options.ungrouped.checkSelectors .entries = .ok () := by
    have hkeys' : options.ungrouped.keys = none := hkeys
    rw [checkSelectors_eq hkeys] at hcheck
    rw [checkSelectors_eq hkeys']
    exact hcheck
  have hranges' : options.ungrouped.selectedRanges = .ok plan.ranges := hranges
  have hcontinuation' : options.ungrouped.continuation = none := hcontinuation
  have hshape' : options.ungrouped.shape reducer = .ok .entries := rfl
  have hplan := plan_eq_ok hshape' hcheck' hranges'
  rwa [leftOf, hcontinuation'] at hplan

end QueryOptions

/-! ## Groups of ranges -/

namespace Snapshot

section Rows

variable {snapshot : Snapshot} {options : QueryOptions} {level : GroupLevel} {range : KeyRange}
  {ranges : List KeyRange}

theorem rows_reduceRange (h : snapshot.tree.WellFormed .count)
    (hlevel : level ≠ .components 0) {page : PageOptions} (hclock : ∀ n, page.expired n = false) :
    (snapshot.reduceRange .count range level page).rows
      = (limited (page.limit.map (wordSum · page.skip))
        (((snapshot.tree.met page.descending range).splitBy (Tree.sameGroup level)).map
          (Tree.countedRun level))).drop page.skip := by
  obtain ⟨n, hrows, hgoing, hend⟩ := Tree.reduceGroups_spec h level page.descending
    ⟨page.limit.map (wordSum · page.skip), page.expired⟩ range
  have hreached (m : Nat) : Tree.GroupLimits.reached
      ⟨page.limit.map (wordSum · page.skip), page.expired⟩ m
        = (page.limit.map (wordSum · page.skip)).any (· ≤ m) := by
    simp only [Tree.GroupLimits.reached, hclock, Bool.and_false, Bool.or_false]
  simp only [hreached] at hgoing hend
  rw [← Tree.groups_count h, limited_eq_take hgoing, ← hrows, reduceRange, if_neg hlevel]
  intro hlt
  rcases hend with ⟨hall, -⟩ | ⟨_, -, -, -, -, hfull⟩
  · exact absurd hlt (Nat.not_lt.mpr (Nat.le_of_eq hall.symm))
  · exact hfull

theorem rows_reduceWhole (range : KeyRange) (h : snapshot.tree.WellFormed .count)
    {page : PageOptions} (hskip : page.skip = 0) (hlimit : page.limit ≠ some 0)
    (descending : Bool) :
    (snapshot.reduceRange .count range (.components 0) page).rows
      = if snapshot.tree.met descending range = [] then []
        else [(wholeLabel, .count (snapshot.tree.met descending range).length)] := by
  rw [reduceRange, if_pos rfl, reduceWhole, ← Tree.length_met h descending range]
  simp only [List.length_eq_zero_iff]
  split
  next => rfl
  next => rw [if_neg (by simp [hskip, hlimit]), Tree.reduce_count h descending]

/-- A query for groups to one range is answered by the page of that range. -/
theorem groupRanges_singleton (snapshot : Snapshot) (r : Reducer) (level : GroupLevel)
    (range : KeyRange) (hopen : options.isFull 0 = false) (skip : Nat) :
    let page := snapshot.reduceRange r range level (options.pageAfter skip 0)
    (groupRanges r snapshot level options [range] skip 0).rows = page.rows ∧
      (groupRanges r snapshot level options [range] skip 0).next = page.next := by
  rw [groupRanges, hopen, if_neg Bool.false_ne_true]
  dsimp only
  split
  next => exact ⟨rfl, rfl⟩
  next hnext =>
    exact ⟨List.append_nil _, (Option.isNone_iff_eq_none.mp (by simpa using hnext)).symm⟩

/-- With one range at most, the groups of a query are those of the range. -/
theorem rows_groupRanges (snapshot : Snapshot) (r : Reducer) (level : GroupLevel)
    (hranges : ranges = [] ∨ ∃ range, ranges = [range]) (hopen : options.isFull 0 = false)
    (skip : Nat) :
    (groupRanges r snapshot level options ranges skip 0).rows
      = ranges.flatMap fun range =>
        (snapshot.reduceRange r range level (options.pageAfter skip 0)).rows := by
  rcases hranges with rfl | ⟨range, rfl⟩
  · rfl
  · rw [List.flatMap_singleton]
    exact (groupRanges_singleton snapshot r level range hopen skip).1

theorem rows_groupRanges_of_isFull {r : Reducer} (hfull : options.isFull 0 = true) (skip : Nat) :
    (groupRanges r snapshot level options ranges skip 0).rows = [] := by
  cases ranges with
  | nil => rfl
  | cons range rest => rw [groupRanges, if_pos hfull]

/-- The groups of a query are the runs of what it meets. -/
theorem rows_groupRanges_eq (h : snapshot.tree.WellFormed .count)
    (hclock : ∀ n, options.expired n = false)
    (hranges : ranges = [] ∨ ∃ range, ranges = [range]) (hlevel : level ≠ .components 0) :
    (groupRanges .count snapshot level options ranges options.skip 0).rows
      = (options.groupPage ((ranges.flatMap (snapshot.tree.met options.descending)).splitBy
          (Tree.sameGroup level))).map (Tree.countedRun level) := by
  cases hopen : options.isFull 0 with
  | true =>
      rw [rows_groupRanges_of_isFull hopen, QueryOptions.groupPage_of_isFull hopen]
      rfl
  | false =>
      rw [rows_groupRanges snapshot .count level hranges hopen]
      rcases hranges with rfl | ⟨range, rfl⟩
      · have hnil : (([] : List KeyRange).flatMap (snapshot.tree.met options.descending)).splitBy
            (Tree.sameGroup level) = [] := rfl
        rw [hnil, QueryOptions.groupPage, limited_nil, List.drop_nil]
        rfl
      · have hpage : ∀ n, (options.pageAfter options.skip 0).expired n = false := fun n => hclock _
        rw [List.flatMap_singleton, List.flatMap_singleton, rows_reduceRange h hlevel hpage,
          pageAfter_zero, ← QueryOptions.groupPage_map]
        rfl

/-- The rows of the query for all entries. -/
theorem exists_ungrouped {r : Reducer} (h : snapshot.tree.WellFormed r)
    (hdecodes : ∀ e ∈ snapshot.tree.toList, ∃ parts, e.id.key.Decodes parts)
    {reducer : Option Reducer} (hclock : ∀ n, options.expired n = false)
    (hplan : options.ungrouped.plan reducer = .ok ⟨ranges, .entries⟩) :
    ∃ listed, snapshot.query reducer options.ungrouped = .ok listed ∧
      listed.rows = (ranges.flatMap (snapshot.tree.met options.descending)).map
        fun e => e.plain.row := by
  have hclock' : ∀ n, options.ungrouped.expired n = false := hclock
  have hrows : (snapshot.listRanges options.ungrouped ranges options.ungrouped.skip 0).rows
      = ranges.flatMap (snapshot.tree.met options.descending) :=
    rows_listRanges h hclock' ranges 0 0
  have hmem : ∀ e ∈ (snapshot.listRanges options.ungrouped ranges options.ungrouped.skip 0).rows,
      ∃ parts, e.id.key.Decodes parts := by
    intro e he
    exact hdecodes e (mem_toList_of_mem_rows h he)
  refine ⟨_, query_eq_of_plan hplan rfl (mapM_entryRow hmem), ?_⟩
  exact congrArg _ hrows

/-- The row of a run shows what the keys of its entries have in common, and their number. -/
theorem groupRow_countedRun (hlevel : level ≠ .components 0) {run : List Entry} (hrun : run ≠ [])
    (hdecodes : ∀ e ∈ run, ∃ parts, e.id.key.Decodes parts) :
    groupRow level (Tree.countedRun level run).1 (Tree.countedRun level run).2
      = .ok (level.countRow (run.map fun e => e.plain.row)) := by
  cases run with
  | nil => exact absurd rfl hrun
  | cons e rest =>
      obtain ⟨parts, hparts⟩ := hdecodes e List.mem_cons_self
      have hshown : shownKey (level.label e.id.key) = .ok (level.leading e.plain.row.key) := by
        rw [shownKey_eq (GroupLevel.decodes_label level hparts), PlainEntry.row, hparts.plain_key,
          GroupLevel.leading_toJson]
      rw [groupRow, if_neg hlevel, Tree.countedRun, List.head?_cons, Option.map_some,
        Option.getD_some, hshown]
      simp [GroupLevel.countRow, Aggregate.toJson, bind, Except.bind, pure, Except.pure]

theorem query_of_groups {r : Reducer} {reducer : Option Reducer} {plan : Plan}
    (hplan : options.plan reducer = .ok plan) (hshape : plan.shape = .groups r level)
    {rows : List ViewRow}
    (hrows : (groupRanges r snapshot level options plan.ranges options.skip 0).rows.mapM
      (fun row => groupRow level row.1 row.2) = .ok rows) :
    snapshot.query reducer options = .ok {
      rows
      totalRows := none
      offset := none
      continuation := continuationOf plan.ranges
        (groupRanges r snapshot level options plan.ranges options.skip 0).next } := by
  rw [query, hplan]
  simp only [bind, Except.bind, run, hshape, hrows]
  rfl

/-- The rows of a query for groups. -/
theorem exists_groups (h : snapshot.tree.WellFormed .count)
    (hdecodes : ∀ e ∈ snapshot.tree.toList, ∃ parts, e.id.key.Decodes parts)
    {plan : Plan} (hclock : ∀ n, options.expired n = false)
    (hplan : options.plan (some .count) = .ok plan) (hshape : plan.shape = .groups .count level)
    (hranges : plan.ranges = [] ∨ ∃ range, plan.ranges = [range])
    (hlevel : level ≠ .components 0) :
    ∃ grouped, snapshot.query (some .count) options = .ok grouped ∧
      grouped.rows = options.groupPage
        ((level.runs ((plan.ranges.flatMap (snapshot.tree.met options.descending)).map
          fun e => e.plain.row)).map level.countRow) := by
  have hmem : ∀ e ∈ plan.ranges.flatMap (snapshot.tree.met options.descending),
      ∃ parts, e.id.key.Decodes parts := by
    intro e he
    obtain ⟨range, -, hrange⟩ := List.mem_flatMap.mp he
    exact hdecodes e (Tree.mem_met.mp hrange).1
  generalize hmet : plan.ranges.flatMap (snapshot.tree.met options.descending) = entries at hmem ⊢
  have hrows := rows_groupRanges_eq h hclock hranges hlevel
  rw [hmet] at hrows
  have hmapM : ((groupRanges .count snapshot level options plan.ranges options.skip 0).rows).mapM
      (fun row => groupRow level row.1 row.2)
      = .ok ((options.groupPage (entries.splitBy (Tree.sameGroup level))).map
        fun run => level.countRow (run.map fun e => e.plain.row)) := by
    rw [hrows, List.mapM_map]
    apply mapM_eq_ok
    intro run hrun
    have hsplit := (prefix_limited _ _).subset (List.mem_of_mem_drop hrun)
    refine groupRow_countedRun hlevel (List.ne_nil_of_mem_splitBy hsplit) ?_
    intro e he
    apply hmem e
    rw [← List.flatten_splitBy (Tree.sameGroup level) entries]
    exact List.mem_flatten_of_mem hsplit he
  refine ⟨_, query_of_groups hplan hshape hmapM, ?_⟩
  rw [GroupLevel.runs_map_row hmem, List.map_map, QueryOptions.groupPage_map]
  rfl

/-- The row of a query for everything as one group. -/
theorem exists_whole (h : snapshot.tree.WellFormed .count)
    {plan : Plan} (hplan : options.plan (some .count) = .ok plan)
    (hshape : plan.shape = .groups .count (.components 0))
    (hranges : plan.ranges = [] ∨ ∃ range, plan.ranges = [range])
    (hskip : options.skip = 0) (hlimit : options.limit ≠ some 0) :
    ∃ grouped, snapshot.query (some .count) options = .ok grouped ∧
      grouped.rows = if plan.ranges.flatMap (snapshot.tree.met options.descending) = [] then []
        else [⟨.null, .nat (plan.ranges.flatMap (snapshot.tree.met options.descending)).length,
          none⟩] := by
  have hrows := rows_groupRanges snapshot .count (.components 0) hranges (isFull_zero hlimit)
    options.skip
  have hpage : (options.pageAfter options.skip 0).limit ≠ some 0 := by
    rw [pageAfter_zero]
    exact hlimit
  have hwhole (range : KeyRange) := rows_reduceWhole range h hskip hpage options.descending
  have hmapM : ((groupRanges .count snapshot (.components 0) options plan.ranges
        options.skip 0).rows).mapM (fun row => groupRow (.components 0) row.1 row.2)
      = .ok (if plan.ranges.flatMap (snapshot.tree.met options.descending) = [] then []
        else [⟨.null, .nat (plan.ranges.flatMap (snapshot.tree.met options.descending)).length,
          none⟩]) := by
    rw [hrows]
    rcases hranges with hnil | ⟨range, hone⟩
    · rw [hnil]
      rfl
    · rw [hone, List.flatMap_singleton, List.flatMap_singleton, hwhole]
      split
      next => rfl
      next => rfl
  exact ⟨_, query_of_groups hplan hshape hmapM, rfl⟩

end Rows

end Snapshot

theorem Tree.GroupLevel.sum_countRow (level : GroupLevel) (rows : List ViewRow) :
    (((level.runs rows).map level.countRow).map fun row => row.value.asNat?.getD 0).sum
      = rows.length := by
  have hvalue (n : Nat) : (Json.nat n).asNat?.getD 0 = n := by simp [Json.nat, Json.asNat?]
  have hcount : ((level.runs rows).map level.countRow).map (fun row => row.value.asNat?.getD 0)
      = (level.runs rows).map List.length := by
    rw [List.map_map]
    apply List.map_congr_left
    intro run _
    exact hvalue run.length
  rw [hcount, ← List.length_flatten, GroupLevel.runs, List.flatten_splitBy]

/-! ## Stores that count -/

namespace IndexStore

/-- After any writes of encoded keys to a store that counts, a query for groups that is accepted,
names no list of keys, has time enough and does not continue another one, is answered by the runs of
the rows of the same query for all entries. Only if the limit and what is to be skipped add up to
more than a word holds, it has no rows, whatever is there. Everything as one group is counted by one
row, if there is anything. -/
theorem query_counts_runs (view : View) (hcount : view.reducer = some .count)
    (writes : List Write) (hdistinct : ∀ w ∈ writes, w.Distinct)
    (hencoded : ∀ w ∈ writes, w.Encoded) (options : QueryOptions)
    (hword : ∀ limit ∈ options.limit, limit < UInt64.size)
    (hreduce : options.reduce ≠ some false) (hkeys : options.keys = none)
    (hclock : ∀ n, options.expired n = false) (hcontinuation : options.continuation = none)
    (plan : Plan) (hplan : options.plan view.reducer = .ok plan) :
    let snapshot := (writes.foldl write (empty view.name view.reducer)).current
    ∃ listed, snapshot.query view.reducer options.ungrouped = .ok listed ∧
      (options.grouping = .components 0 → options.skip = 0 → options.limit ≠ some 0 →
        ∃ grouped, snapshot.query view.reducer options = .ok grouped ∧
          grouped.rows = if listed.rows = [] then []
            else [⟨.null, .nat listed.rows.length, none⟩]) ∧
      (options.grouping ≠ .components 0 →
        ∃ grouped, snapshot.query view.reducer options = .ok grouped ∧
          grouped.rows = (if options.overflows then [] else limited options.limit
            (((options.grouping.runs listed.rows).map options.grouping.countRow).drop
              options.skip)) ∧
          (options.skip = 0 → options.limit = none →
            (grouped.rows.map fun row => row.value.asNat?.getD 0).sum = listed.rows.length)) := by
  intro snapshot
  obtain ⟨hholds, hreducer⟩ := (holds_empty view.name view.reducer).foldl_write hdistinct
  have hkeysEncoded := Contents.encoded_empty.foldl_write hencoded
  have hwellFormed : snapshot.tree.WellFormed .count := by
    have hcounts : (empty view.name view.reducer).reducer = .count := by
      rw [hcount]
      rfl
    have h := hholds.reflects.wellFormed
    rw [hreducer, hcounts] at h
    exact h
  have hdecodes : ∀ e ∈ snapshot.tree.toList, ∃ parts, e.id.key.Decodes parts :=
    fun e he => hholds.decodes hkeysEncoded he
  have hlistedPlan := QueryOptions.plan_ungrouped hkeys hcontinuation hplan
  have hranges := QueryOptions.ranges_of_plan hkeys hplan
  obtain ⟨listed, hlisted, hlistedRows⟩ :=
    Snapshot.exists_ungrouped hwellFormed hdecodes hclock hlistedPlan
  rw [hcount] at hplan
  have hshape := QueryOptions.shape_eq_groups hreduce
    (QueryOptions.parts_of_plan hplan hcontinuation).1
  refine ⟨listed, hlisted, ?_, ?_⟩
  · intro hwhole hskip hlimit
    rw [hwhole] at hshape
    obtain ⟨grouped, hgrouped, hrows⟩ :=
      Snapshot.exists_whole hwellFormed hplan hshape hranges hskip hlimit
    refine ⟨grouped, by rw [hcount]; exact hgrouped, ?_⟩
    rw [hrows, hlistedRows, List.length_map]
    simp only [List.map_eq_nil_iff]
  · intro hlevel
    obtain ⟨grouped, hgrouped, hrows⟩ :=
      Snapshot.exists_groups hwellFormed hdecodes hclock hplan hshape hranges hlevel
    rw [← hlistedRows, QueryOptions.groupPage_eq hword] at hrows
    refine ⟨grouped, by rw [hcount]; exact hgrouped, hrows, ?_⟩
    intro hskip hlimit
    rw [hrows, QueryOptions.overflows, hskip, hlimit]
    exact options.grouping.sum_countRow listed.rows

/-- Two documents under one key and one of them under another, counted by key and downwards. -/
theorem query_counts_runs_downwards :
    let view : View := { name := "tags", map := fun _ => .emitted [], reducer := some .count }
    let writes : List Write := [.applyBatch
      [⟨"a", [(⟨[0x21]⟩, .nat 1), (⟨[0x10]⟩, .nat 2)]⟩, ⟨"b", [(⟨[0x10]⟩, .nat 3)]⟩] none]
    let options : QueryOptions := {
      groupLevel := some 1, limit := some 3, descending := true, startKey := some (.bool true) }
    let snapshot := (writes.foldl write (empty view.name view.reducer)).current
    ∃ listed, snapshot.query view.reducer options.ungrouped = .ok listed ∧
      (options.grouping = .components 0 → options.skip = 0 → options.limit ≠ some 0 →
        ∃ grouped, snapshot.query view.reducer options = .ok grouped ∧
          grouped.rows = if listed.rows = [] then []
            else [⟨.null, .nat listed.rows.length, none⟩]) ∧
      (options.grouping ≠ .components 0 →
        ∃ grouped, snapshot.query view.reducer options = .ok grouped ∧
          grouped.rows = (if options.overflows then [] else limited options.limit
            (((options.grouping.runs listed.rows).map options.grouping.countRow).drop
              options.skip)) ∧
          (options.skip = 0 → options.limit = none →
            (grouped.rows.map fun row => row.value.asNat?.getD 0).sum = listed.rows.length)) :=
  query_counts_runs _ rfl _ distinct_tagged encoded_tagged _ (by simp [UInt64.size]) (by simp) rfl
    (fun _ => rfl) rfl ⟨[⟨.start, .afterKey ⟨[0x21]⟩⟩], .groups .count (.components 1)⟩ rfl

/-- Of two groups one is to be skipped, and as many others are wanted as a word can tell. The sum of
the two numbers wraps around to zero: no group is read, and the answer is cut short before the first
one. -/
theorem not_counts_runs_overflowing :
    let view : View := { name := "tags", map := fun _ => .emitted [], reducer := some .count }
    let options : QueryOptions := { group := true, limit := some (UInt64.size - 1), skip := 1 }
    let snapshot := (tagged.foldl write (empty view.name view.reducer)).current
    ∃ listed grouped, snapshot.query view.reducer options.ungrouped = .ok listed ∧
      snapshot.query view.reducer options = .ok grouped ∧ grouped.continuation = some .start ∧
      grouped.rows ≠ limited options.limit
        (((options.grouping.runs listed.rows).map options.grouping.countRow).drop
          options.skip) := by
  intro view options snapshot
  let first : ViewRow := ⟨.array [.null], .nat 2, some "a"⟩
  let second : ViewRow := ⟨.array [.null], .nat 3, some "b"⟩
  let third : ViewRow := ⟨.array [.bool true], .nat 1, some "a"⟩
  exact ⟨⟨[first, second, third], some 3, some 0, false, none⟩,
    ⟨[], none, none, false, some .start⟩, by decide +kernel, by decide +kernel, rfl,
    by decide +kernel⟩

end IndexStore

end ViewIndex
