import ViewIndex.Proofs.Query.Paging

/-!
# Groups page by page

The pages of a query for groups, read from one snapshot one after the other, have the groups of the
query without the first ones, those that it skips. But groups that are skipped count, too, when a
page looks whether it is to end: if the first page ends while it still passes over them, the later
pages, which skip nothing, show the rest of them. That happens when time is up, and when the limit
and what is to be skipped add up to more than a word holds.
-/

namespace ViewIndex

open ViewIndex.Tree (GroupLevel)

namespace QueryOptions

variable {options : QueryOptions} {α : Type}

/-- The same query for everything at once, with time enough. -/
def unpaged (options : QueryOptions) : QueryOptions :=
  { options with skip := 0, limit := none, expired := fun _ => false }

/-- With how many groups the page of a query ends, those that it skips included. Everything as one
group is never cut short. -/
def groupLimits (options : QueryOptions) : Tree.GroupLimits :=
  if options.grouping = .components 0 then {}
  else ⟨options.limit.map (wordSum · options.skip), options.expired⟩

theorem reached_groupLimits {n : Nat} : options.groupLimits.reached n = false ↔
    options.grouping = .components 0 ∨
      (∀ limit ∈ options.limit, n < wordSum limit options.skip) ∧
        (0 < n → options.expired n = false) := by
  rw [groupLimits]
  split
  next hwhole => simp [hwhole, Tree.GroupLimits.reached]
  next hlevel =>
    have hclock : (decide (0 < n) && options.expired n) = false ↔
        (0 < n → options.expired n = false) := by
      cases options.expired n <;> simp
    rw [Tree.GroupLimits.reached, Bool.or_eq_false_iff, hclock, or_iff_right hlevel]
    cases options.limit <;> simp

/-- A page that skips nothing has a group to begin with. -/
theorem reached_groupLimits_zero (hskip : options.skip = 0) (hlimit : options.limit ≠ some 0)
    (hword : ∀ limit ∈ options.limit, limit < UInt64.size) :
    options.groupLimits.reached 0 = false := by
  refine reached_groupLimits.mpr (.inr ⟨fun limit hmem => ?_, fun hpos => ?_⟩)
  · rw [hskip, wordSum_of_lt (hword limit hmem)]
    exact Nat.pos_of_ne_zero fun hzero => hlimit (hzero ▸ hmem)
  · exact absurd hpos (Nat.lt_irrefl 0)

/-- How many groups are passed over: as many as are to be skipped, unless the page ends before. -/
def passedOver (options : QueryOptions) : Nat :=
  ((List.range options.skip).find? options.groupLimits.reached).getD options.skip

/-- The page ends with the groups that are passed over, and no sooner, if they are not all that are
to be skipped. -/
theorem passedOver_spec (options : QueryOptions) :
    options.passedOver ≤ options.skip ∧
      (∀ n < options.passedOver, options.groupLimits.reached n = false) ∧
      (options.passedOver < options.skip →
        options.groupLimits.reached options.passedOver = true) := by
  rw [passedOver]
  cases hfind : (List.range options.skip).find? options.groupLimits.reached with
  | none =>
      refine ⟨Nat.le_refl _, fun n hlt => ?_, fun hlt => absurd hlt (Nat.lt_irrefl _)⟩
      exact Bool.not_eq_true _ ▸ List.find?_eq_none.mp hfind n (List.mem_range.mpr hlt)
  | some m =>
      obtain ⟨hfound, hmem, hbefore⟩ := List.find?_range_eq_some.mp hfind
      refine ⟨Nat.le_of_lt (List.mem_range.mp hmem), fun n hlt => ?_, fun _ => hfound⟩
      simpa using hbefore n hlt

/-- A page that gets to `n` groups drops those of them that are passed over. -/
theorem drop_passedOver (items : List α) {n : Nat}
    (hgoing : ∀ m < n, options.groupLimits.reached m = false)
    (hend : n = items.length ∨ options.groupLimits.reached n = true) :
    items.drop options.passedOver = items.drop (min options.skip n) := by
  obtain ⟨hle, hbefore, hends⟩ := options.passedOver_spec
  rcases Nat.lt_or_ge n options.passedOver with hshort | hlong
  · -- Nothing stopped the page there, so that it has all groups.
    obtain rfl : n = items.length := by
      refine hend.resolve_right fun hstop => ?_
      rw [hbefore n hshort] at hstop
      cases hstop
    rw [List.drop_eq_nil_of_le (Nat.le_of_lt hshort), List.drop_eq_nil_of_le (by omega)]
  · have hsame : options.passedOver = min options.skip n := by
      rcases Nat.lt_or_ge options.passedOver options.skip with hlt | hge
      · have hlast : ¬ options.passedOver < n := fun hinside => by
          have hstop := hends hlt
          rw [hgoing _ hinside] at hstop
          cases hstop
        omega
      · omega
    rw [hsame]

theorem drop_passedOver_eq_iff {items : List α} :
    items.drop options.passedOver = items.drop options.skip ↔
      ∀ n < options.skip, n < items.length → options.groupLimits.reached n = false := by
  obtain ⟨hle, hbefore, hends⟩ := options.passedOver_spec
  constructor
  · intro heq n hskip hlength
    apply hbefore n
    have hlengths := congrArg List.length heq
    rw [List.length_drop, List.length_drop] at hlengths
    omega
  · intro hgoing
    rcases Nat.lt_or_ge options.passedOver options.skip with hlt | hge
    · have hstop := hends hlt
      have hlong : items.length ≤ options.passedOver := Nat.le_of_not_lt fun hinside => by
        rw [hgoing _ hlt hinside] at hstop
        cases hstop
      rw [List.drop_eq_nil_of_le hlong, List.drop_eq_nil_of_le (Nat.le_trans hlong hle)]
    · rw [Nat.le_antisymm hle hge]

end QueryOptions

/-! ## One page -/

namespace Snapshot

variable {snapshot : Snapshot} {r : Reducer} {level : GroupLevel} {range : KeyRange}

/-- All groups of a range, of which there is one at most by no components. -/
def groupsOf (r : Reducer) (snapshot : Snapshot) (level : GroupLevel) (descending : Bool)
    (range : KeyRange) : List (EncodedKey × Aggregate) :=
  (snapshot.reduceRange r range level { descending }).rows

theorem groupsOf_eq (r : Reducer) (snapshot : Snapshot) (hlevel : level ≠ .components 0)
    (descending : Bool) (range : KeyRange) :
    groupsOf r snapshot level descending range
      = Tree.groups r snapshot.tree level descending range := by
  rw [groupsOf, reduceRange, if_neg hlevel]
  rfl

/-- A page of the whole range as one group has all of it or skips it. -/
theorem reduceWhole_spec (r : Reducer) (snapshot : Snapshot) (range : KeyRange)
    (options : PageOptions) (hlimit : options.limit ≠ some 0) :
    let items := groupsOf r snapshot (.components 0) options.descending range
    let page := snapshot.reduceRange r range (.components 0) options
    page.rows = items.drop options.skip ∧ page.next = none := by
  intro items page
  have hitems : items = (reduceWhole r snapshot range { descending := options.descending }).rows :=
    rfl
  have hpage : page = reduceWhole r snapshot range options := rfl
  rw [hpage, hitems, reduceWhole, reduceWhole]
  split
  next => exact ⟨List.drop_nil.symm, rfl⟩
  next =>
    cases hskip : options.skip with
    | zero => simp [hlimit]
    | succ n => simp

variable {options : QueryOptions} {reducer : Option Reducer}

/-- The page of a query gets to the first groups of its range and drops those that are to be
skipped. Where it is cut short, the range goes on with the others. -/
theorem reduceRange_spec (h : snapshot.tree.WellFormed r) (range : KeyRange)
    (hlimit : options.limit ≠ some 0) :
    let items := groupsOf r snapshot options.grouping options.descending range
    let page := snapshot.reduceRange r range options.grouping
      ⟨options.limit, options.skip, options.descending, options.expired⟩
    ∃ n, page.rows = (items.take n).drop options.skip ∧
      (∀ m < n, options.groupLimits.reached m = false) ∧
      (n = items.length ∧ page.next = none ∨
        ∃ cut, n < items.length ∧ page.next = some cut ∧
          groupsOf r snapshot options.grouping options.descending
            (range.resume cut options.descending) = items.drop n ∧
          options.groupLimits.reached n = true) := by
  intro items page
  by_cases hlevel : options.grouping = .components 0
  · have hwhole := reduceWhole_spec r snapshot range
      ⟨options.limit, options.skip, options.descending, options.expired⟩ hlimit
    rw [← hlevel] at hwhole
    obtain ⟨hrows, hnext⟩ := hwhole
    exact ⟨items.length, by rw [List.take_length]; exact hrows,
      fun m _ => QueryOptions.reached_groupLimits.mpr (.inl hlevel), .inl ⟨rfl, hnext⟩⟩
  · have hitems (range : KeyRange) := groupsOf_eq r snapshot hlevel options.descending range
    have hlimits : options.groupLimits
        = ⟨options.limit.map (wordSum · options.skip), options.expired⟩ := if_neg hlevel
    obtain ⟨n, hrows, hgoing, hcases⟩ := Tree.reduceGroups_spec h options.grouping
      options.descending options.groupLimits range
    simp only [← hitems] at hrows hcases
    have hpage : page = _ := if_neg hlevel
    rw [hlimits] at hrows hgoing hcases
    rw [hlimits]
    refine ⟨n, by rw [hpage, ← hrows], hgoing, ?_⟩
    rcases hcases with ⟨hall, hnone⟩ | ⟨cut, hlt, hcut, hrest, -, hreached⟩
    · exact .inl ⟨hall, by rw [hpage]; exact hnone⟩
    · exact .inr ⟨cut, hlt, by rw [hpage]; exact hcut, hrest, hreached⟩

/-- A query for groups that reads one range has all that it does not pass over, or it is cut short
and the rest of the range has what its answer lacks. -/
theorem exists_groupsPage (h : snapshot.tree.WellFormed r)
    (hdecodes : ∀ e ∈ snapshot.tree.toList, ∃ parts, e.id.key.Decodes parts)
    (hplan : options.plan reducer = .ok ⟨[range], .groups r options.grouping⟩)
    (hlimit : options.limit ≠ some 0) :
    let items := groupsOf r snapshot options.grouping options.descending range
    ∃ answer, snapshot.query reducer options = .ok answer ∧
      (answer.continuation = none ∧
          answer.rows = (items.drop options.passedOver).map options.grouping.row ∨
        ∃ cut, answer.continuation = some cut ∧
          let left := groupsOf r snapshot options.grouping options.descending
            (range.resume cut options.descending)
          0 < left.length ∧
            left.length < items.length + (options.groupLimits.reached 0).toNat ∧
            answer.rows ++ left.map options.grouping.row
              = (items.drop options.passedOver).map options.grouping.row) := by
  intro items
  obtain ⟨answer, hanswer, hrows, hcontinuation⟩ := exists_query_of_groups h hdecodes hplan rfl
  obtain ⟨hlisted, hnext⟩ := groupRanges_singleton snapshot r options.grouping range
    (isFull_zero hlimit) options.skip
  rw [pageAfter_zero] at hlisted hnext
  dsimp only at hrows hcontinuation
  rw [hlisted] at hrows
  rw [continuationOf_singleton, hnext] at hcontinuation
  obtain ⟨n, hpage, hgoing, hcases⟩ := reduceRange_spec h range hlimit
  rw [hpage] at hrows
  refine ⟨answer, hanswer, ?_⟩
  rcases hcases with ⟨hall, hnone⟩ | ⟨cut, hlt, hcut, hrest, hstop⟩
  · have hdrop := options.drop_passedOver items hgoing (.inl hall)
    rw [← drop_take_append_drop, hall, List.drop_length, List.append_nil] at hdrop
    exact .inl ⟨hcontinuation.trans hnone, by rw [hrows, hdrop, hall]⟩
  · have hdrop := options.drop_passedOver items hgoing (.inr hstop)
    rw [← drop_take_append_drop] at hdrop
    have hfewer : items.length - n < items.length + (options.groupLimits.reached 0).toNat := by
      cases n with
      | zero => rw [hstop]; exact Nat.lt_succ_self _
      | succ n =>
          exact Nat.lt_of_lt_of_le (Nat.sub_lt (Nat.zero_lt_of_lt hlt) n.succ_pos)
            (Nat.le_add_right _ _)
    refine .inr ⟨cut, hcontinuation.trans hcut, ?_⟩
    rw [hrest]
    dsimp only
    rw [List.length_drop, hrows, ← List.map_append, hdrop]
    exact ⟨Nat.sub_pos_of_lt hlt, hfewer, rfl⟩

/-- A query for everything at once has all groups. -/
theorem exists_unpaged (h : snapshot.tree.WellFormed r)
    (hdecodes : ∀ e ∈ snapshot.tree.toList, ∃ parts, e.id.key.Decodes parts)
    (hplan : options.plan reducer = .ok ⟨[range], .groups r level⟩) :
    ∃ whole, snapshot.query reducer options.unpaged = .ok whole ∧
      whole.rows = (groupsOf r snapshot level options.descending range).map level.row := by
  have hplan' : options.unpaged.plan reducer = .ok ⟨[range], .groups r level⟩ := hplan
  obtain ⟨whole, hwhole, hrows, -⟩ := exists_query_of_groups h hdecodes hplan' rfl
  have hopen : options.unpaged.isFull 0 = false := rfl
  have hlisted := (groupRanges_singleton snapshot r level range hopen 0).1
  rw [pageAfter_zero] at hlisted
  exact ⟨whole, hwhole, hrows.trans (congrArg _ hlisted)⟩

end Snapshot

/-! ## Pages of one snapshot -/

namespace IndexStore

variable {store : IndexStore} {r : Reducer} {range : KeyRange} {options : QueryOptions}
  {reducer : Option Reducer}

/-- Pages that are read to the end have all groups of a range but those that the first one passes
over. -/
theorem readPages_groups (h : store.current.tree.WellFormed r)
    (hdecodes : ∀ e ∈ store.current.tree.toList, ∃ parts, e.id.key.Decodes parts)
    (hkeys : options.keys = none)
    (hplan : options.plan reducer = .ok ⟨[range], .groups r options.grouping⟩)
    (hlimit : options.limit ≠ some 0) {requests : List PageRequest}
    (hrequests : ∀ request ∈ requests, request.writes = [] ∧ request.limit ≠ some 0 ∧
      ∀ limit ∈ request.limit, limit < UInt64.size) :
    let items := Snapshot.groupsOf r store.current options.grouping options.descending range
    ∃ pages, store.readPages reducer options requests = .ok pages ∧
      (items.length + (options.groupLimits.reached 0).toNat ≤ requests.length + 1 →
        ReadToEnd pages) ∧
      (ReadToEnd pages → pages.flatMap (fun page => page.answer.rows)
        = (items.drop options.passedOver).map options.grouping.row) := by
  induction requests generalizing options range with
  | nil =>
      obtain ⟨answer, hanswer, hpage⟩ := Snapshot.exists_groupsPage h hdecodes hplan hlimit
      refine ⟨_, readPages_nil hanswer, ?_⟩
      rw [readToEnd_singleton, List.flatMap_singleton]
      rcases hpage with ⟨hnone, hrows⟩ | ⟨cut, hcut, hpos, hlt, -⟩
      · exact ⟨fun _ => hnone, fun _ => hrows⟩
      · refine ⟨fun hshort => ?_, fun hnone => ?_⟩
        · exact absurd (Nat.lt_of_lt_of_le hlt hshort) (Nat.not_lt.mpr hpos)
        · rw [hcut] at hnone
          cases hnone
  | cons request later ih =>
      obtain ⟨answer, hanswer, hpage⟩ := Snapshot.exists_groupsPage h hdecodes hplan hlimit
      obtain ⟨⟨hwrites, hnext, hword⟩, hlater⟩ := List.forall_mem_cons.mp hrequests
      rcases hpage with ⟨hnone, hrows⟩ | ⟨cut, hcut, -, hlt, hparts⟩
      · refine ⟨_, readPages_of_none hanswer hnone _, ?_⟩
        rw [readToEnd_singleton, List.flatMap_singleton]
        exact ⟨fun _ => hnone, fun _ => hrows⟩
      · have hkeys' : (request.options options cut).keys = none := hkeys
        have hresumed : (request.options options cut).plan reducer
            = .ok ⟨[range.resume cut options.descending], .groups r options.grouping⟩ :=
          QueryOptions.plan_resumedAt hkeys hplan cut
        obtain ⟨pages, hpages, hend, hrows⟩ := ih hkeys' hresumed hnext hlater
        have hread : (request.writes.foldl write store).readPages reducer
            (request.options options cut) later = .ok pages := by
          rw [hwrites]
          exact hpages
        have hahead : (request.options options cut).groupLimits.reached 0 = false :=
          QueryOptions.reached_groupLimits_zero rfl hnext hword
        rw [hahead] at hend
        refine ⟨_, readPages_cons hanswer hcut hread, ?_⟩
        rw [readToEnd_cons hcut, List.flatMap_cons]
        refine ⟨fun hshort => hend ?_, fun hread => ?_⟩
        · exact Nat.le_of_lt_succ (Nat.lt_of_lt_of_le hlt hshort)
        · rw [hrows hread]
          exact hparts

/-- After any writes of encoded keys, a query for groups that is accepted and names no list of keys
is read page by page from one snapshot, with any limits and clocks; as many pages as there are
groups are enough, and one more if the first one ends at once. The pages have the groups of the
query for everything at once but those that are passed over. These are the ones to be skipped
exactly if the first page does not end while it still skips groups: neither is time up, nor does the
sum of the limit and what is to be skipped wrap around to so few. -/
theorem grouped_pages_join (view : View) (r : Reducer) (hreducer : view.reducer = some r)
    (writes : List Write) (hdistinct : ∀ w ∈ writes, w.Distinct)
    (hencoded : ∀ w ∈ writes, w.Encoded) (options : QueryOptions)
    (hreduce : options.reduce ≠ some false) (hkeys : options.keys = none)
    (hlimit : options.limit ≠ some 0) (plan : Plan)
    (hplan : options.plan view.reducer = .ok plan) (requests : List PageRequest)
    (hrequests : ∀ request ∈ requests, request.writes = [] ∧ request.limit ≠ some 0 ∧
      ∀ limit ∈ request.limit, limit < UInt64.size) :
    let store := writes.foldl write (empty view.name view.reducer)
    ∃ whole pages, store.current.query view.reducer options.unpaged = .ok whole ∧
      store.readPages view.reducer options requests = .ok pages ∧
      (whole.rows.length + (options.groupLimits.reached 0).toNat ≤ requests.length + 1 →
        ReadToEnd pages) ∧
      (ReadToEnd pages → pages.flatMap (fun page => page.answer.rows)
        = whole.rows.drop options.passedOver) ∧
      (whole.rows.drop options.passedOver = whole.rows.drop options.skip ↔
        ∀ n < options.skip, n < whole.rows.length → options.grouping = .components 0 ∨
          (∀ limit ∈ options.limit, n < wordSum limit options.skip) ∧
            (0 < n → options.expired n = false)) := by
  intro store
  obtain ⟨hholds, hsame⟩ := (holds_empty view.name view.reducer).foldl_write hdistinct
  have hkeysEncoded := Contents.encoded_empty.foldl_write hencoded
  have hwellFormed : store.current.tree.WellFormed r := by
    have hcurrent := hholds.reflects.wellFormed
    rwa [hsame, show (empty view.name view.reducer).reducer = r by rw [hreducer]; rfl]
      at hcurrent
  have hdecodes : ∀ e ∈ store.current.tree.toList, ∃ parts, e.id.key.Decodes parts :=
    fun e he => hholds.decodes hkeysEncoded he
  have hranges := QueryOptions.ranges_of_plan hkeys hplan
  have hshape : plan.shape = .groups r options.grouping := by
    have hplanned := (QueryOptions.exists_of_plan_eq_ok hplan).1
    rw [hreducer] at hplanned
    exact QueryOptions.shape_eq_groups hreduce hplanned
  obtain ⟨ranges, shape⟩ := plan
  obtain rfl : shape = _ := hshape
  rcases hranges with hnone | ⟨range, hone⟩
  · obtain rfl : ranges = [] := hnone
    have hplan' : options.unpaged.plan view.reducer
        = .ok ⟨[], .groups r options.grouping⟩ := hplan
    obtain ⟨whole, hwhole, hall, -⟩ :=
      Snapshot.exists_query_of_groups hwellFormed hdecodes hplan' rfl
    obtain ⟨answer, hanswer, hrows, hend⟩ :=
      Snapshot.exists_query_of_groups hwellFormed hdecodes hplan rfl
    have hempty : whole.rows = [] := hall
    refine ⟨whole, _, hwhole, readPages_of_none hanswer hend requests, ?_⟩
    rw [readToEnd_singleton, List.flatMap_singleton, hempty, List.drop_nil]
    exact ⟨fun _ => hend, fun _ => hrows, fun _ n _ hlt => absurd hlt (Nat.not_lt_zero n),
      fun _ => List.drop_nil.symm⟩
  · obtain rfl : ranges = [range] := hone
    obtain ⟨whole, hwhole, hall⟩ := Snapshot.exists_unpaged hwellFormed hdecodes hplan
    obtain ⟨pages, hpages, hend, hrows⟩ :=
      readPages_groups hwellFormed hdecodes hkeys hplan hlimit hrequests
    rw [List.map_drop, ← hall] at hrows
    refine ⟨whole, pages, hwhole, hpages, ?_, hrows, ?_⟩
    · rw [hall, List.length_map]
      exact hend
    · simp only [QueryOptions.drop_passedOver_eq_iff, QueryOptions.reached_groupLimits]

/-- The groups by key downwards, one at a time behind the first, which is skipped. -/
theorem grouped_pages_join_downwards :
    let view : View := { name := "tags", map := fun _ => .emitted [], reducer := some .count }
    let options : QueryOptions := {
      group := true, descending := true, skip := 1, limit := some 1, expired := fun _ => true }
    let requests : List PageRequest := [{ limit := some 1 }, { expired := fun _ => true }]
    let store := tagged.foldl write (empty view.name view.reducer)
    ∃ whole pages, store.current.query view.reducer options.unpaged = .ok whole ∧
      store.readPages view.reducer options requests = .ok pages ∧
      (whole.rows.length + (options.groupLimits.reached 0).toNat ≤ requests.length + 1 →
        ReadToEnd pages) ∧
      (ReadToEnd pages → pages.flatMap (fun page => page.answer.rows)
        = whole.rows.drop options.passedOver) ∧
      (whole.rows.drop options.passedOver = whole.rows.drop options.skip ↔
        ∀ n < options.skip, n < whole.rows.length → options.grouping = .components 0 ∨
          (∀ limit ∈ options.limit, n < wordSum limit options.skip) ∧
            (0 < n → options.expired n = false)) :=
  grouped_pages_join _ .count rfl _ distinct_tagged encoded_tagged _ (by simp) rfl (by simp)
    ⟨[.all], .groups .count .wholeKey⟩ rfl _ (by simp)

/-- Of two groups both are to be skipped. Time is up behind the first, and the second page shows the
other one. -/
theorem not_grouped_pages_join_hurried :
    let view : View := { name := "tags", map := fun _ => .emitted [], reducer := some .count }
    let options : QueryOptions := { group := true, skip := 2, expired := fun _ => true }
    let store := tagged.foldl write (empty view.name view.reducer)
    ∃ whole pages, store.current.query view.reducer options.unpaged = .ok whole ∧
      store.readPages view.reducer options [{}] = .ok pages ∧ ReadToEnd pages ∧
      pages.flatMap (fun page => page.answer.rows) ≠ whole.rows.drop options.skip := by
  intro view options store
  let cut : Cut := .afterKey ⟨[0x10]⟩
  let nullRow : ViewRow := ⟨.array [.null], .nat 2, none⟩
  let trueRow : ViewRow := ⟨.array [.bool true], .nat 1, none⟩
  let first : ViewResult := ⟨[], none, none, false, some cut⟩
  let second : ViewResult := ⟨[trueRow], none, none, false, none⟩
  have hfirst : store.current.query view.reducer options = .ok first := by decide +kernel
  have hsecond : store.current.query view.reducer (PageRequest.options {} options cut)
      = .ok second := by decide +kernel
  exact ⟨⟨[nullRow, trueRow], none, none, false, none⟩, _, by decide +kernel,
    readPages_cons hfirst rfl (readPages_nil hsecond),
    (readToEnd_cons rfl).mpr (readToEnd_singleton.mpr rfl), by decide⟩

end IndexStore

end ViewIndex
