import ViewIndex.Proofs.Tree.Counting
import ViewIndex.Query.Answer

/-!
# Pages without a clock

Unless time runs out, a page has as many of the entries of its range as its limit allows, and a
query that goes on from range to range has as many of those of all its ranges. What is skipped and
what is taken in one range is carried to the next.
-/

namespace ViewIndex

/-! ## Cursors -/

namespace Tree.Cursor

/-- A listing has the first entries; it ends where it is told to, or when no entry is left. -/
theorem takeUntil_spec (stop : Nat → Bool) (cursor : Cursor) (taken : Nat) :
    ∃ n ≤ cursor.toList.length,
      cursor.takeUntil stop taken
        = (cursor.toList.take n, decide (n < cursor.toList.length)) ∧
      (n < cursor.toList.length → stop (taken + n) = true) ∧
      ∀ m < n, stop (taken + m) = false := by
  induction cursor using Cursor.toList.induct generalizing taken with
  | case1 cursor hnext =>
      rw [toList_of_next?_eq_none hnext, takeUntil]
      split
      next =>
        exact ⟨0, Nat.le_refl 0, rfl, fun hlt => absurd hlt (Nat.lt_irrefl 0),
          fun m hm => absurd hm (Nat.not_lt_zero m)⟩
      next hsome => rw [hnext] at hsome; cases hsome
  | case2 cursor entry later hnext _ ih =>
      rw [toList_of_next?_eq_some hnext, takeUntil]
      split
      next hnone => rw [hnext] at hnone; cases hnone
      next hsome =>
        rw [hnext] at hsome
        cases hsome
        split
        next hstop =>
          exact ⟨0, Nat.zero_le _, by simp, fun _ => hstop,
            fun m hm => absurd hm (Nat.not_lt_zero m)⟩
        next hgo =>
          obtain ⟨n, hle, hpage, hstopped, hgoing⟩ := ih (taken + 1)
          refine ⟨n + 1, Nat.succ_le_succ hle, ?_, ?_, ?_⟩
          · simp [hpage]
          · intro hlt
            rw [← Nat.add_assoc, Nat.add_right_comm]
            exact hstopped (Nat.lt_of_succ_lt_succ hlt)
          · intro m hm
            cases m with
            | zero => simpa using hgo
            | succ m =>
                rw [← Nat.add_assoc, Nat.add_right_comm]
                exact hgoing m (Nat.lt_of_succ_lt_succ hm)

/-- With a limit alone, a listing goes on until the limit is reached. -/
theorem takeUntil_eq (limit : Option Nat) (cursor : Cursor) :
    cursor.takeUntil (fun n => limit.any (· ≤ n)) 0
      = (limited limit cursor.toList,
        decide ((limited limit cursor.toList).length < cursor.toList.length)) := by
  obtain ⟨n, hle, hpage, hstopped, hgoing⟩ :=
    takeUntil_spec (fun n => limit.any (· ≤ n)) cursor 0
  simp only [Nat.zero_add] at hstopped hgoing
  have hlimited := limited_eq_take hgoing hstopped
  rw [hlimited, hpage, List.length_take, Nat.min_eq_left hle]

end Tree.Cursor

/-! ## Scans -/

namespace Snapshot

open ViewIndex.Tree (listing)

variable {snapshot : Snapshot} {r : Reducer}

/-- A page has the first of the entries that are left when some are skipped. If it ends before them,
it says behind which of them to go on. -/
theorem scan_spec (h : snapshot.tree.WellFormed r) (range : KeyRange) (options : PageOptions) :
    let items := (snapshot.tree.met options.descending range).drop options.skip
    ∃ n ≤ items.length, (snapshot.scan range options).rows = items.take n ∧
      (snapshot.scan range options).next
        = (if n < items.length then (items.take n).getLast?.map (cutBehind · options.descending)
          else none) ∧
      (n < items.length → stopsAt options n = true) ∧ ∀ m < n, stopsAt options m = false := by
  intro items
  have hitems : ((snapshot.tree.cursor range options.descending).drop options.skip).toList
      = items := by
    rw [Tree.Cursor.toList_drop, Tree.toList_cursor_eq_met h]
  obtain ⟨n, hle, hpage, hstopped, hgoing⟩ := Tree.Cursor.takeUntil_spec (stopsAt options)
    ((snapshot.tree.cursor range options.descending).drop options.skip) 0
  simp only [hitems, Nat.zero_add] at hle hpage hstopped hgoing
  refine ⟨n, hle, by rw [scan, hpage], ?_, hstopped, hgoing⟩
  rw [scan, hpage]
  simp only [decide_eq_true_eq]

theorem stopsAt_eq {options : PageOptions} (hclock : ∀ n, options.expired n = false) :
    stopsAt options = fun n => options.limit.any (· ≤ n) := by
  funext n
  rw [stopsAt, hclock, Bool.and_false, Bool.or_false]

theorem takeUntil_scan (h : snapshot.tree.WellFormed r) {range : KeyRange} {options : PageOptions}
    (hclock : ∀ n, options.expired n = false) :
    ((snapshot.tree.cursor range options.descending).drop options.skip).takeUntil
        (stopsAt options) 0
      = (limited options.limit ((snapshot.tree.met options.descending range).drop options.skip),
        decide ((limited options.limit
            ((snapshot.tree.met options.descending range).drop options.skip)).length
          < ((snapshot.tree.met options.descending range).drop options.skip).length)) := by
  rw [stopsAt_eq hclock, Tree.Cursor.takeUntil_eq, Tree.Cursor.toList_drop,
    Tree.toList_cursor_eq_met h]

theorem rows_scan (h : snapshot.tree.WellFormed r) {range : KeyRange} {options : PageOptions}
    (hclock : ∀ n, options.expired n = false) :
    (snapshot.scan range options).rows
      = limited options.limit ((snapshot.tree.met options.descending range).drop options.skip) := by
  rw [scan, takeUntil_scan h hclock]

/-- A page was cut short only if the limit left out some of its entries. -/
theorem lt_of_next_scan (h : snapshot.tree.WellFormed r) {range : KeyRange} {options : PageOptions}
    (hclock : ∀ n, options.expired n = false)
    (hnext : (snapshot.scan range options).next.isSome = true) :
    (snapshot.scan range options).rows.length
      < ((snapshot.tree.met options.descending range).drop options.skip).length := by
  rw [rows_scan h hclock]
  rw [scan, takeUntil_scan h hclock] at hnext
  dsimp only at hnext
  split at hnext
  next hlt => exact of_decide_eq_true hlt
  next => cases hnext

/-! ## Ranges one after the other -/

variable {options : QueryOptions}

/-- A query reads its first range unless it is to have no rows. -/
theorem isFull_zero (hlimit : options.limit ≠ some 0) : options.isFull 0 = false :=
  any_le_zero hlimit

/-- The first page of a query is that of its first range. -/
theorem pageAfter_zero (options : QueryOptions) (skip : Nat) :
    options.pageAfter skip 0 = ⟨options.limit, skip, options.descending, options.expired⟩ := by
  simp [QueryOptions.pageAfter]

/-- A query to one range is answered by the page of that range. -/
theorem listRanges_singleton (snapshot : Snapshot) (range : KeyRange)
    (hlimit : options.limit ≠ some 0) :
    let page := snapshot.scan range
      ⟨options.limit, options.skip, options.descending, options.expired⟩
    (snapshot.listRanges options [range] options.skip 0).rows = page.rows ∧
      (snapshot.listRanges options [range] options.skip 0).next = page.next := by
  rw [listRanges, isFull_zero hlimit, if_neg Bool.false_ne_true, pageAfter_zero]
  dsimp only
  split
  next => exact ⟨rfl, rfl⟩
  next hnext =>
    exact ⟨List.append_nil _, (Option.isNone_iff_eq_none.mp (by simpa using hnext)).symm⟩

theorem rows_listRanges (h : snapshot.tree.WellFormed r)
    (hclock : ∀ n, options.expired n = false) (ranges : List KeyRange) (skip taken : Nat) :
    (snapshot.listRanges options ranges skip taken).rows
      = limited (options.limit.map (· - taken))
        ((ranges.flatMap (snapshot.tree.met options.descending)).drop skip) := by
  induction ranges generalizing skip taken with
  | nil =>
      rw [List.flatMap_nil, List.drop_nil, limited_nil]
      rfl
  | cons range rest ih =>
      have hpage : ∀ n, (options.pageAfter skip taken).expired n = false := fun n => hclock _
      have hrows : (snapshot.scan range (options.pageAfter skip taken)).rows
          = limited (options.limit.map (· - taken))
            ((snapshot.tree.met options.descending range).drop skip) := rows_scan h hpage
      rw [listRanges, List.flatMap_cons, List.drop_append, Tree.length_met h]
      split
      next hfull => rw [limited_of_reached hfull]
      next hfull =>
        -- The limit lets through what the page has, and of the rest what the page does not use up.
        rw [limited_append, ← hrows]
        dsimp only
        split
        next hnext =>
          have hlt := lt_of_next_scan h hpage hnext
          rw [hrows] at hlt ⊢
          exact ((congrArg _ (limited_of_lt hlt)).trans (List.append_nil _)).symm
        next => rw [ih, map_sub_sub]

/-- The offset of a query to one range counts what comes before the range and what is skipped. -/
theorem offset_listRanges (range : KeyRange) (skip : Nat)
    (hopen : options.isFull 0 = false) :
    (snapshot.listRanges options [range] skip 0).offset
      = some (placeBehind (snapshot.tree.skippedBy range options.descending) skip
        snapshot.len) := by
  have hoffset : (snapshot.scan range (options.pageAfter skip 0)).offset
      = placeBehind (snapshot.tree.skippedBy range options.descending) skip snapshot.len := rfl
  rw [listRanges, hopen, if_neg Bool.false_ne_true]
  dsimp only
  split
  next => exact congrArg some hoffset
  next => exact congrArg some hoffset

/-- The entries before the first one of a page are those before its range and those skipped. As
there is one behind them, their number does not wrap around. -/
theorem exists_listing_eq (h : snapshot.tree.WellFormed r) {descending : Bool} {range : KeyRange}
    {skip : Nat} {first : Entry} {rest : List Entry}
    (hmet : (snapshot.tree.met descending range).drop skip = first :: rest) :
    ∃ before after, snapshot.tree.listing descending = before ++ first :: after ∧
      before.length = placeBehind (snapshot.tree.skippedBy range descending) skip snapshot.len := by
  have hlength : (snapshot.tree.listing descending).length = snapshot.len := by
    rw [Snapshot.len, h.sound.len_eq, listing]
    split
    next => rw [List.length_reverse]
    next => rfl
  obtain ⟨n, hplaces⟩ := Tree.exists_met_eq h range descending
  rw [hplaces, List.drop_take, List.drop_drop] at hmet
  have hbehind := List.take_append_drop (n - skip) ((snapshot.tree.listing descending).drop
    (snapshot.tree.skippedBy range descending + skip))
  rw [hmet, List.cons_append] at hbehind
  have hinside : snapshot.tree.skippedBy range descending + skip < snapshot.len := by
    have hcount := congrArg List.length hbehind
    rw [List.length_cons, List.length_drop, hlength] at hcount
    omega
  refine ⟨_, _, ((List.take_append_drop (snapshot.tree.skippedBy range descending + skip) _).symm
    ).trans (by rw [← hbehind]), ?_⟩
  rw [List.length_take, hlength, placeBehind, if_pos (Nat.le_of_lt hinside),
    Nat.min_eq_left (Nat.le_of_lt hinside)]

end Snapshot

end ViewIndex
