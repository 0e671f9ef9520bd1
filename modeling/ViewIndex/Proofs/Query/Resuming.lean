import ViewIndex.Proofs.Query.Cutting
import ViewIndex.Proofs.Query.Grouping
import ViewIndex.Proofs.Tree.GroupCuts

/-!
# Queries that go on

Every query that is accepted is answered. If its answer was cut short, the same query goes on behind
the cut with what is left of its range. Only a query that names keys is not accepted again, although
one that names a single key is told where to go on.
-/

namespace ViewIndex

open ViewIndex.Tree (GroupLevel)

namespace QueryOptions

variable {options : QueryOptions} {reducer : Option Reducer} {plan : Plan}

/-- The same query, going on from a cut. -/
def resumedAt (options : QueryOptions) (cut : Cut) : QueryOptions :=
  { options with continuation := some cut }

/-- A query that goes on reads what is left of its ranges. -/
theorem plan_resumedAt (hkeys : options.keys = none) (h : options.plan reducer = .ok plan)
    (cut : Cut) : (options.resumedAt cut).plan reducer
      = .ok ⟨plan.ranges.map (·.resume cut options.descending), plan.shape⟩ := by
  obtain ⟨hshape, hcheck, ranges, hranges, hleft⟩ := exists_of_plan_eq_ok h
  have hcheck' : (options.resumedAt cut).checkSelectors plan.shape = .ok () := by
    have hkeys' : (options.resumedAt cut).keys = none := hkeys
    rw [checkSelectors_eq hkeys] at hcheck
    rw [checkSelectors_eq hkeys']
    exact hcheck
  have hshape' : (options.resumedAt cut).shape reducer = .ok plan.shape := hshape
  have hranges' : (options.resumedAt cut).selectedRanges = .ok ranges := hranges
  have hresumed : plan.ranges.map (·.resume cut options.descending)
      = (options.resumedAt cut).leftOf ranges := by
    rw [hleft, leftOf]
    split
    next => rw [List.map_map]; simp only [Function.comp_def, KeyRange.resume_resume]; rfl
    next => rfl
  rw [plan_eq_ok hshape' hcheck' hranges', hresumed]

/-- A query for keys cannot go on. -/
theorem plan_resumedAt_of_keys {keys : List Json} (hkeys : options.keys = some keys)
    (h : options.plan reducer = .ok plan) (cut : Cut) :
    (options.resumedAt cut).plan reducer = .error (.options .keysContinued) := by
  obtain ⟨hshape, hcheck, -⟩ := exists_of_plan_eq_ok h
  have hcheck' : (options.resumedAt cut).checkSelectors plan.shape = .error .keysContinued := by
    have hkeys' : (options.resumedAt cut).keys = some keys := hkeys
    have hcontinuation : (options.resumedAt cut).continuation = some cut := rfl
    have hcount : (options.resumedAt cut).selectorCount = options.selectorCount := rfl
    rw [checkSelectors, hcount, hkeys', hcontinuation]
    rw [checkSelectors, hkeys] at hcheck
    split at hcheck
    next => cases hcheck
    next hone =>
      rw [if_neg hone]
      cases hcase : plan.shape with
      | entries => rfl
      | groups r level =>
          rw [hcase] at hcheck
          cases level with
          | wholeKey => rfl
          | components count =>
              cases count with
              | zero => cases hcheck
              | succ count => rfl
  have hshape' : (options.resumedAt cut).shape reducer = .ok plan.shape := hshape
  simp only [QueryOptions.plan, hshape', hcheck', Except.mapError, bind, Except.bind]

/-- Rows stand for entries, or for groups that are reduced as the view says. -/
theorem shape_cases {shape : RowShape} (h : options.shape reducer = .ok shape) :
    shape = .entries ∨ ∃ r, reducer = some r ∧ shape = .groups r options.grouping := by
  simp only [QueryOptions.shape] at h
  split at h
  next =>
    split at h
    next => cases h; exact .inr ⟨_, rfl, rfl⟩
    next => cases h
  next =>
    split at h
    next => cases h
    next => cases h; exact .inl rfl

end QueryOptions

/-! ## Rows of groups -/

/-- The row of a group. The group of a whole range shows no key. -/
def Tree.GroupLevel.row (level : GroupLevel) (group : EncodedKey × Aggregate) : ViewRow where
  key := if level = .components 0 then .null else (group.1.decode.toOption.getD []).toJson
  value := group.2.toJson
  docId := none

namespace Snapshot

variable {snapshot : Snapshot} {r : Reducer} {level : GroupLevel} {options : QueryOptions}
  {ranges : List KeyRange}

theorem groupRow_eq {group : EncodedKey × Aggregate}
    (h : level ≠ .components 0 → ∃ parts, group.1.Decodes parts) :
    groupRow level group.1 group.2 = .ok (level.row group) := by
  rw [groupRow, GroupLevel.row]
  split
  next => rfl
  next hlevel =>
    obtain ⟨parts, hparts⟩ := h hlevel
    rw [shownKey_eq hparts, hparts.decode_eq]
    rfl

/-- Unless everything is one group, the labels of groups are keys. -/
theorem decodes_of_mem_groupRanges (h : snapshot.tree.WellFormed r)
    (hdecodes : ∀ e ∈ snapshot.tree.toList, ∃ parts, e.id.key.Decodes parts)
    (hlevel : level ≠ .components 0) {skip taken : Nat} {group : EncodedKey × Aggregate}
    (hgroup : group ∈ (groupRanges r snapshot level options ranges skip taken).rows) :
    ∃ parts, group.1.Decodes parts := by
  induction ranges generalizing skip taken with
  | nil => cases hgroup
  | cons range rest ih =>
      have hpage : ∀ group ∈
          (snapshot.reduceRange r range level (options.pageAfter skip taken)).rows,
          ∃ parts, group.1.Decodes parts := by
        intro group hgroup
        rw [reduceRange, if_neg hlevel] at hgroup
        exact Tree.decodes_of_mem_groupsFrom h hdecodes (List.mem_of_mem_drop hgroup)
      rw [groupRanges] at hgroup
      split at hgroup
      next => cases hgroup
      next =>
        dsimp only at hgroup
        split at hgroup
        next => exact hpage group hgroup
        next => exact (List.mem_append.mp hgroup).elim (hpage group) ih

variable {reducer : Option Reducer} {plan : Plan}

/-- Every query for groups that is accepted is answered. -/
theorem exists_query_of_groups (h : snapshot.tree.WellFormed r)
    (hdecodes : ∀ e ∈ snapshot.tree.toList, ∃ parts, e.id.key.Decodes parts)
    (hplan : options.plan reducer = .ok plan) (hshape : plan.shape = .groups r level) :
    let pages := groupRanges r snapshot level options plan.ranges options.skip 0
    ∃ result, snapshot.query reducer options = .ok result ∧
      result.rows = pages.rows.map level.row ∧
      result.continuation = continuationOf plan.ranges pages.next := by
  refine ⟨_, query_of_groups hplan hshape (mapM_eq_ok fun group hgroup => ?_), rfl, rfl⟩
  exact groupRow_eq fun hlevel => decodes_of_mem_groupRanges h hdecodes hlevel hgroup

end Snapshot

/-! ## Answers that go on -/

namespace IndexStore

variable {store : IndexStore} {contents : Contents} {options : QueryOptions}
  {reducer : Option Reducer} {plan : Plan}

/-- Every query that is accepted is answered, and goes on only if it has one range. -/
theorem Holds.exists_query (h : store.Holds contents) (hencoded : contents.Encoded)
    (hreducer : store.reducer = reducer.getD .count) (hplan : options.plan reducer = .ok plan) :
    ∃ result next, store.current.query reducer options = .ok result ∧
      result.continuation = Snapshot.continuationOf plan.ranges next := by
  have hwellFormed := h.reflects.wellFormed
  have hdecodes : ∀ e ∈ store.current.tree.toList, ∃ parts, e.id.key.Decodes parts :=
    fun e he => h.decodes hencoded he
  rcases QueryOptions.shape_cases (QueryOptions.exists_of_plan_eq_ok hplan).1 with
    hshape | ⟨r, rfl, hshape⟩
  · obtain ⟨result, hresult, -, hcontinuation⟩ :=
      Snapshot.exists_query_of_entries options hwellFormed hdecodes hplan hshape
    exact ⟨result, _, hresult, hcontinuation⟩
  · rw [hreducer] at hwellFormed
    obtain ⟨result, hresult, -, hcontinuation⟩ :=
      Snapshot.exists_query_of_groups hwellFormed hdecodes hplan hshape
    exact ⟨result, _, hresult, hcontinuation⟩

/-- After any writes of encoded keys, a query that is accepted is answered. If the answer has a
continuation, the query that goes on from it is answered, too, before or after any further writes,
unless the query names keys: then it names a single one, and is turned down when it goes on. -/
theorem query_resumed_unless_keys (view : View) (writes later : List Write)
    (hdistinct : ∀ w ∈ writes ++ later, w.Distinct) (hencoded : ∀ w ∈ writes ++ later, w.Encoded)
    (options : QueryOptions) (plan : Plan) (hplan : options.plan view.reducer = .ok plan) :
    let store := writes.foldl write (empty view.name view.reducer)
    let snapshot := (later.foldl write store).current
    ∃ result, store.current.query view.reducer options = .ok result ∧
      ∀ cut ∈ result.continuation,
        (options.keys = none →
          ∃ next, snapshot.query view.reducer (options.resumedAt cut) = .ok next) ∧
        ∀ keys ∈ options.keys, keys.length = 1 ∧
          snapshot.query view.reducer (options.resumedAt cut)
            = .error (.options .keysContinued) := by
  intro store snapshot
  rw [List.forall_mem_append] at hdistinct hencoded
  obtain ⟨hholds, hreducer⟩ := (holds_empty view.name view.reducer).foldl_write hdistinct.1
  obtain ⟨hholds', hreducer'⟩ := hholds.foldl_write hdistinct.2
  have hkeys := Contents.encoded_empty.foldl_write hencoded.1
  have hkeys' := hkeys.foldl_write hencoded.2
  obtain ⟨result, next, hresult, hcontinuation⟩ := hholds.exists_query hkeys hreducer hplan
  refine ⟨result, hresult, fun cut hcut => ⟨fun hnone => ?_, fun keys hsome => ⟨?_, ?_⟩⟩⟩
  · obtain ⟨resumed, -, hresumed, -⟩ := hholds'.exists_query hkeys' (hreducer'.trans hreducer)
      (QueryOptions.plan_resumedAt hnone hplan cut)
    exact ⟨resumed, hresumed⟩
  · rw [← QueryOptions.length_ranges_of_plan hsome hplan]
    rw [hcontinuation, Snapshot.continuationOf] at hcut
    split at hcut
    next hone => exact hone
    next => cases hcut
  · rw [Snapshot.query, QueryOptions.plan_resumedAt_of_keys hsome hplan]
    rfl

/-- Groups by key downwards, cut short behind the first one, of which a document is then taken
out. -/
theorem query_resumed_unless_keys_downwards :
    let view : View := { name := "tags", map := fun _ => .emitted [], reducer := some .count }
    let options : QueryOptions := { group := true, descending := true, limit := some 1 }
    let store := tagged.foldl write (empty view.name view.reducer)
    let snapshot := ([.remove "a"].foldl write store).current
    ∃ result, store.current.query view.reducer options = .ok result ∧
      ∀ cut ∈ result.continuation,
        (options.keys = none →
          ∃ next, snapshot.query view.reducer (options.resumedAt cut) = .ok next) ∧
        ∀ keys ∈ options.keys, keys.length = 1 ∧
          snapshot.query view.reducer (options.resumedAt cut)
            = .error (.options .keysContinued) :=
  query_resumed_unless_keys _ _ [.remove "a"]
    (List.forall_mem_append.mpr ⟨distinct_tagged, by simp [Write.Distinct]⟩)
    (List.forall_mem_append.mpr ⟨encoded_tagged, by simp [Write.Encoded]⟩) _
    ⟨[.all], .groups .count .wholeKey⟩ rfl

/-- A query for one key, cut short behind the first of the two entries under it, is told where to go
on, and is turned down when it does. -/
theorem not_resumed_one_key :
    let view : View := { name := "tags", map := fun _ => .emitted [] }
    let options : QueryOptions := { keys := some [.null], limit := some 1 }
    let snapshot := (tagged.foldl write (empty view.name view.reducer)).current
    ∃ result cut, snapshot.query view.reducer options = .ok result ∧
      result.continuation = some cut ∧
      snapshot.query view.reducer (options.resumedAt cut) = .error (.options .keysContinued) :=
  ⟨⟨[⟨.array [.null], .nat 2, some "a"⟩], some 3, some 0, false,
      some (.afterEntry ⟨⟨[0x10]⟩, "a", 1⟩)⟩, _, by decide +kernel, rfl, by decide +kernel⟩

end IndexStore

end ViewIndex
