import ViewIndex.Proofs.Query.Answers

/-!
# Pages cut short

A page of entries is cut short when its limit is reached or time is up, and then goes on behind its
last row. A query without a limit is cut short by the clock alone. Unless it names several keys, the
answer says so by its continuation: without one it is complete.
-/

namespace ViewIndex

namespace Snapshot

variable {snapshot : Snapshot} {r : Reducer}

theorem stopsAt_zero {options : PageOptions} (hlimit : options.limit ≠ some 0) :
    stopsAt options 0 = false := by
  rw [stopsAt, any_le_zero hlimit]
  rfl

/-- A page either has all entries that are left, or is cut short behind one of them. -/
theorem scan_cases (h : snapshot.tree.WellFormed r) (range : KeyRange) (options : PageOptions)
    (hlimit : options.limit ≠ some 0) :
    let items := (snapshot.tree.met options.descending range).drop options.skip
    let page := snapshot.scan range options
    page.next = none ∧ page.rows = items ∨
      ∃ before last rest, page.next = some (cutBehind last options.descending) ∧
        page.rows = before ++ [last] ∧ items = before ++ last :: rest ∧
        stopsAt options (before.length + 1) = true := by
  intro items page
  obtain ⟨n, hle, hrows, hnext, hstopped, -⟩ := scan_spec h range options
  change page.rows = items.take n at hrows
  change page.next = _ at hnext
  by_cases hlt : n < items.length
  · -- A page is not stopped before its first row, so there is a last one.
    have hpos : n ≠ 0 := by
      rintro rfl
      rw [stopsAt_zero hlimit] at hstopped
      cases hstopped hlt
    obtain ⟨k, rfl⟩ := Nat.exists_eq_succ_of_ne_zero hpos
    have hk : k < items.length := Nat.lt_of_succ_lt hlt
    have hlast : items.take (k + 1) = items.take k ++ [items[k]] :=
      List.take_succ_eq_append_getElem hk
    rw [if_pos hlt, hlast, List.getLast?_append_of_ne_nil _ (List.cons_ne_nil _ _)] at hnext
    refine .inr ⟨items.take k, items[k], items.drop (k + 1), hnext, hrows.trans hlast, ?_, ?_⟩
    · rw [List.cons_getElem_drop_succ, List.take_append_drop]
    · rw [List.length_take, Nat.min_eq_left (Nat.le_of_lt hk)]
      exact hstopped hlt
  · rw [if_neg hlt] at hnext
    rw [List.take_of_length_le (Nat.le_of_not_lt hlt)] at hrows
    exact .inl ⟨hnext, hrows⟩

/-- Without a limit, a page is stopped by the clock alone, and not before it looks at the clock. -/
theorem le_of_stopsAt {options : PageOptions} (hlimit : options.limit = none) {n : Nat}
    (h : stopsAt options n = true) : clockInterval ≤ n ∧ options.expired n = true := by
  simp only [stopsAt, hlimit, Option.any_none, Bool.false_or, Bool.and_eq_true, beq_iff_eq,
    decide_eq_true_eq] at h
  obtain ⟨⟨hmod, hpos⟩, hexpired⟩ := h
  exact ⟨Nat.le_of_dvd hpos (Nat.dvd_of_mod_eq_zero hmod), hexpired⟩

/-- Without a limit, a query for entries has all of its ranges, or the first of them until time was
up, and then it can be continued. -/
theorem listRanges_cases {options : QueryOptions} (h : snapshot.tree.WellFormed r)
    (hlimit : options.limit = none) (ranges : List KeyRange) (skip taken : Nat) :
    let whole := (ranges.flatMap (snapshot.tree.met options.descending)).drop skip
    let pages := snapshot.listRanges options ranges skip taken
    pages.next = none ∧ pages.rows = whole ∨
      pages.next.isSome = true ∧ pages.rows <+: whole ∧ clockInterval ≤ pages.rows.length ∧
        options.expired (taken + pages.rows.length) = true := by
  induction ranges generalizing skip taken with
  | nil => exact .inl ⟨rfl, List.drop_nil.symm⟩
  | cons range rest ih =>
      have hopen : options.isFull taken = false := by rw [QueryOptions.isFull, hlimit]; rfl
      have hunlimited : (options.pageAfter skip taken).limit = none := by
        rw [QueryOptions.pageAfter, hlimit]
        rfl
      have hpage := scan_cases h range (options.pageAfter skip taken)
        (by rw [hunlimited]; exact (Option.some_ne_none 0).symm)
      rw [List.flatMap_cons, List.drop_append, Tree.length_met h, listRanges, hopen,
        if_neg Bool.false_ne_true]
      dsimp only
      rcases hpage with ⟨hnext, hrows⟩ | ⟨before, last, others, hnext, hrows, hitems, hstopped⟩
      · rw [hnext, Option.isSome_none, if_neg Bool.false_ne_true]
        change _ ∨ _
        rcases ih (skip - snapshot.tree.countRange range.lo range.hi)
          (taken + (snapshot.scan range (options.pageAfter skip taken)).rows.length) with
          ⟨hnone, hall⟩ | ⟨hsome, hprefix, hlong, hexpired⟩
        · exact .inl ⟨hnone, congrArg₂ (· ++ ·) hrows hall⟩
        · refine .inr ⟨hsome, ?_, ?_, ?_⟩
          · rw [show (snapshot.tree.met options.descending range).drop skip = _ from hrows.symm]
            exact (List.prefix_append_right_inj _).mpr hprefix
          · rw [List.length_append]
            exact Nat.le_add_left_of_le hlong
          · rw [List.length_append, ← Nat.add_assoc]
            exact hexpired
      · rw [hnext, Option.isSome_some, if_pos rfl]
        obtain ⟨hlong, hexpired⟩ := le_of_stopsAt hunlimited hstopped
        refine .inr ⟨rfl, ?_, ?_⟩
        · rw [hrows, show (snapshot.tree.met options.descending range).drop skip
            = before ++ last :: others from hitems, List.append_assoc, List.cons_append]
          exact (List.prefix_append_right_inj _).mpr (List.prefix_append [last] _)
        · rw [hrows, List.length_append, List.length_singleton]
          exact ⟨hlong, hexpired⟩

theorem continuationOf_singleton (range : KeyRange) (next : Option Cut) :
    continuationOf [range] next = next := if_pos rfl

variable {options : QueryOptions} {reducer : Option Reducer} {plan : Plan}

variable (options) in
/-- Every query for entries that is accepted is answered. -/
theorem exists_query_of_entries (h : snapshot.tree.WellFormed r)
    (hdecodes : ∀ e ∈ snapshot.tree.toList, ∃ parts, e.id.key.Decodes parts)
    (hplan : options.plan reducer = .ok plan) (hshape : plan.shape = .entries) :
    let pages := snapshot.listRanges options plan.ranges options.skip 0
    ∃ result, snapshot.query reducer options = .ok result ∧
      result.rows = pages.rows.map (fun e => e.plain.row) ∧
      result.continuation = continuationOf plan.ranges pages.next := by
  have hmem : ∀ e ∈ (snapshot.listRanges options plan.ranges options.skip 0).rows,
      ∃ parts, e.id.key.Decodes parts := fun e he => hdecodes e (mem_toList_of_mem_rows h he)
  exact ⟨_, query_eq_of_plan hplan hshape (mapM_entryRow hmem), rfl, rfl⟩

end Snapshot

namespace QueryOptions

/-- The same query with time enough. -/
def unhurried (options : QueryOptions) : QueryOptions := { options with expired := fun _ => false }

/-- A query for one key at most reads one range at most. -/
theorem ranges_of_plan_of_few {options : QueryOptions} {reducer : Option Reducer} {plan : Plan}
    (hfew : ∀ keys ∈ options.keys, keys.length ≤ 1) (h : options.plan reducer = .ok plan) :
    plan.ranges = [] ∨ ∃ range, plan.ranges = [range] := by
  cases hkeys : options.keys with
  | none => exact ranges_of_plan hkeys h
  | some keys =>
      have hlength := hfew keys hkeys
      rw [← length_ranges_of_plan hkeys h] at hlength
      rcases Nat.le_one_iff_eq_zero_or_eq_one.mp hlength with hzero | hone
      · exact .inl (List.length_eq_zero_iff.mp hzero)
      · exact .inr (List.length_eq_one_iff.mp hone)

end QueryOptions

namespace IndexStore

/-- After any writes of encoded keys, a query for entries without a limit is answered by the first
of the rows that it has with time enough, and by all of them unless time was up behind the last one.
If it names one key at most and the answer has no continuation, the answer is complete. A query for
several keys never has a continuation. -/
theorem query_complete_unless_continued (view : View) (writes : List Write)
    (hdistinct : ∀ w ∈ writes, w.Distinct) (hencoded : ∀ w ∈ writes, w.Encoded)
    (options : QueryOptions) (hreduce : options.reduce.getD view.reducer.isSome = false)
    (hlimit : options.limit = none) (plan : Plan) (hplan : options.plan view.reducer = .ok plan) :
    let snapshot := (writes.foldl write (empty view.name view.reducer)).current
    ∃ result whole, snapshot.query view.reducer options = .ok result ∧
      snapshot.query view.reducer options.unhurried = .ok whole ∧
      result.rows <+: whole.rows ∧
      (result.rows ≠ whole.rows → Snapshot.clockInterval ≤ result.rows.length ∧
        options.expired result.rows.length = true) ∧
      ((∀ keys ∈ options.keys, keys.length ≤ 1) → result.continuation = none →
        result.rows = whole.rows) ∧
      ∀ keys ∈ options.keys, 1 < keys.length → result.continuation = none := by
  intro snapshot
  obtain ⟨hholds, -⟩ := (holds_empty view.name view.reducer).foldl_write hdistinct
  have hkeys := Contents.encoded_empty.foldl_write hencoded
  have hwellFormed := hholds.reflects.wellFormed
  have hdecodes : ∀ e ∈ snapshot.tree.toList, ∃ parts, e.id.key.Decodes parts :=
    fun e he => hholds.decodes hkeys he
  have hshape := QueryOptions.shape_eq_entries hreduce (QueryOptions.exists_of_plan_eq_ok hplan).1
  obtain ⟨result, hresult, hrows, hcontinuation⟩ :=
    Snapshot.exists_query_of_entries options hwellFormed hdecodes hplan hshape
  obtain ⟨whole, hwhole, hall, -⟩ :=
    Snapshot.exists_query_of_entries options.unhurried hwellFormed hdecodes hplan hshape
  have hmet := @Snapshot.rows_listRanges _ _ options.unhurried hwellFormed (fun _ => rfl)
    plan.ranges options.skip 0
  rw [show options.unhurried.limit = none from hlimit] at hmet
  rw [show options.unhurried.skip = options.skip from rfl, hmet] at hall
  have hseveral : ∀ keys ∈ options.keys, 1 < keys.length → result.continuation = none := by
    intro keys hkeys hlength
    rw [hcontinuation, Snapshot.continuationOf, QueryOptions.length_ranges_of_plan hkeys hplan,
      if_neg (Nat.ne_of_gt hlength)]
  refine ⟨result, whole, hresult, hwhole, ?_⟩
  rcases Snapshot.listRanges_cases hwellFormed hlimit plan.ranges options.skip 0 with
    ⟨-, hcomplete⟩ | ⟨hsome, hprefix, hlong, hexpired⟩
  · have heq : result.rows = whole.rows := by
      rw [hrows, hall, hcomplete]
      rfl
    exact ⟨heq ▸ List.prefix_rfl, fun hne => absurd heq hne, fun _ _ => heq, hseveral⟩
  · refine ⟨?_, fun _ => ?_, fun hfew hnone => ?_, hseveral⟩
    · rw [hrows, hall]
      exact hprefix.map _
    · rw [Nat.zero_add] at hexpired
      rw [hrows, List.length_map]
      exact ⟨hlong, hexpired⟩
    -- With one range the continuation is that of its page, and without any nothing is cut short.
    · rcases QueryOptions.ranges_of_plan_of_few hfew hplan with hnil | ⟨range, hone⟩
      · rw [hnil] at hsome
        cases hsome
      · rw [hone] at hcontinuation hsome
        rw [hnone, Snapshot.continuationOf_singleton] at hcontinuation
        rw [← hcontinuation] at hsome
        cases hsome

/-- Downwards over one key, one row skipped, with time up from the start. -/
theorem query_complete_unless_continued_hurried :
    let view : View := { name := "tags", map := fun _ => .emitted [] }
    let options : QueryOptions := {
      keys := some [.null], skip := 1, descending := true, expired := fun _ => true }
    let snapshot := (tagged.foldl write (empty view.name view.reducer)).current
    ∃ result whole, snapshot.query view.reducer options = .ok result ∧
      snapshot.query view.reducer options.unhurried = .ok whole ∧
      result.rows <+: whole.rows ∧
      (result.rows ≠ whole.rows → Snapshot.clockInterval ≤ result.rows.length ∧
        options.expired result.rows.length = true) ∧
      ((∀ keys ∈ options.keys, keys.length ≤ 1) → result.continuation = none →
        result.rows = whole.rows) ∧
      ∀ keys ∈ options.keys, 1 < keys.length → result.continuation = none :=
  query_complete_unless_continued _ _ distinct_tagged encoded_tagged _ rfl rfl
    ⟨[.exact ⟨[0x10]⟩], .entries⟩ rfl

/-- A document with more entries under one key than a scan lists before it looks at the clock. -/
def crowded : List Write := [.applyBatch [⟨"a", List.replicate 65 (⟨[0x10]⟩, .null)⟩] none]

/-- With time up, a query for two keys ends within the first of them, and its answer does not tell
that rows are left. -/
theorem not_complete_several_keys :
    let view : View := { name := "tags", map := fun _ => .emitted [] }
    let options : QueryOptions := { keys := some [.null, .bool true], expired := fun _ => true }
    let snapshot := (crowded.foldl write (empty view.name view.reducer)).current
    ∃ result whole, snapshot.query view.reducer options = .ok result ∧
      snapshot.query view.reducer options.unhurried = .ok whole ∧
      result.continuation = none ∧ result.rows ≠ whole.rows :=
  let row : ViewRow := ⟨.array [.null], .null, some "a"⟩
  ⟨⟨List.replicate 64 row, some 65, some 0, false, none⟩,
    ⟨List.replicate 65 row, some 65, some 0, false, none⟩, by decide +kernel, by decide +kernel,
    rfl, by decide +kernel⟩

end IndexStore

end ViewIndex
