import ViewIndex.Proofs.Tree.Grouping
import ViewIndex.Proofs.Tree.Reducing

/-!
# Groups cut short

The groups of a range are found one after the other, and each leaves the rest of the range behind a
cut. So where a limit or the clock ends the list, it goes on behind the last of these cuts: what was
listed and the groups of the rest are all groups of the range, whatever they are reduced by. By a
lawful reducer, these are the runs of the range, each with the aggregate of its values.
-/

namespace ViewIndex

/-- Only the last cut of a range that is cut several times matters. -/
theorem KeyRange.resume_resume (range : KeyRange) (first second : Cut) (descending : Bool) :
    (range.resume first descending).resume second descending
      = range.resume second descending := by
  cases descending <;> rfl

namespace Tree

/-- All groups of a range, with nothing to cut them short. -/
def groups (r : Reducer) (tree : Tree) (level : GroupLevel) (descending : Bool)
    (range : KeyRange) : List (EncodedKey × Aggregate) :=
  (tree.reduceGroups r range level descending {}).1

variable {r : Reducer} {tree : Tree} {level : GroupLevel} {descending : Bool} {range : KeyRange}
  {first : Entry} {rest : List Entry}

theorem first?_eq_head? (h : tree.WellFormed r) (range : KeyRange) (descending : Bool) :
    tree.first? range descending = (tree.met descending range).head? := by
  rw [first?, Cursor.map_fst_next?, toList_cursor_eq_met h]

/-- The part of a range behind its first group, given what is met first. -/
def behindFirst (level : GroupLevel) (descending : Bool) (range : KeyRange) (first : Entry) :
    KeyRange :=
  range.resume (groupEnd level descending first) descending

/-- The first group of a range, given what is met first. -/
def firstGroup (r : Reducer) (tree : Tree) (level : GroupLevel) (descending : Bool)
    (range : KeyRange) (first : Entry) : EncodedKey × Aggregate :=
  let group := (tree.splitGroup range (level.label first.id.key) level descending).1
  (level.label first.id.key, tree.reduce r group.lo group.hi)

theorem splitGroup_snd (tree : Tree) (level : GroupLevel) (descending : Bool) (range : KeyRange)
    (first : Entry) : (tree.splitGroup range (level.label first.id.key) level descending).2
      = behindFirst level descending range first := by
  cases descending <;> rfl

theorem groupsFrom_of_nil (h : tree.WellFormed r) (hmet : tree.met descending range = [])
    (limits : GroupLimits) (fuel taken : Nat) :
    groupsFrom r tree level descending limits fuel taken range = ([], none) := by
  cases fuel with
  | zero => rfl
  | succ fuel => rw [groupsFrom, first?_eq_head? h, hmet]; rfl

theorem groupsFrom_of_cons (h : tree.WellFormed r)
    (hmet : tree.met descending range = first :: rest) (limits : GroupLimits) (fuel taken : Nat) :
    groupsFrom r tree level descending limits (fuel + 1) taken range
      = if limits.reached taken then ([], some (if descending then range.hi else range.lo))
        else
          let later := groupsFrom r tree level descending limits fuel (taken + 1)
            (behindFirst level descending range first)
          (firstGroup r tree level descending range first :: later.1, later.2) := by
  rw [groupsFrom, first?_eq_head? h, hmet, ← splitGroup_snd tree]
  rfl

section WellFormed

variable (h : tree.WellFormed r)

include h

theorem runs_behindFirst (level : GroupLevel) (hmet : tree.met descending range = first :: rest) :
    tree.runs level descending range
      = (tree.met descending range).filter (sameGroup level first)
        :: tree.runs level descending (behindFirst level descending range first) := by
  obtain ⟨hgroup, -⟩ := met_splitGroup level h hmet
  rw [runs_of_cons level h hmet, hgroup, splitGroup_snd]

/-- What holds of a range without entries, and of one with entries if it holds of the part behind
the first group, holds of every range. -/
theorem range_induction (level : GroupLevel) (descending : Bool) {motive : KeyRange → Prop}
    (nil : ∀ range, tree.met descending range = [] → motive range)
    (cons : ∀ range first rest, tree.met descending range = first :: rest →
      motive (behindFirst level descending range first) → motive range) (range : KeyRange) :
    motive range := by
  induction hruns : tree.runs level descending range generalizing range with
  | nil => exact nil range ((runs_eq_nil_iff level).mp hruns)
  | cons run others ih =>
      cases hmet : tree.met descending range with
      | nil => rw [(runs_eq_nil_iff level).mpr hmet] at hruns; cases hruns
      | cons first rest =>
          refine cons range first rest hmet (ih _ ?_)
          rw [runs_behindFirst h level hmet] at hruns
          exact (List.cons.inj hruns).2

/-- A list of groups depends on no more than when the limits are reached: there is a round for each
run and one to find that no entry is left. -/
theorem groupsFrom_congr (level : GroupLevel) {limits others : GroupLimits} (range : KeyRange)
    {fuel more taken start : Nat}
    (hreached : ∀ n, limits.reached (taken + n) = others.reached (start + n))
    (hfuel : (tree.runs level descending range).length < fuel)
    (hmore : (tree.runs level descending range).length < more) :
    groupsFrom r tree level descending limits fuel taken range
      = groupsFrom r tree level descending others more start range := by
  induction range using range_induction h level descending generalizing fuel more taken start with
  | nil range hmet => rw [groupsFrom_of_nil h hmet, groupsFrom_of_nil h hmet]
  | cons range first rest hmet ih =>
      rw [runs_behindFirst h level hmet, List.length_cons] at hfuel hmore
      obtain ⟨fuel, rfl⟩ := Nat.exists_eq_add_one_of_ne_zero (Nat.ne_zero_of_lt hfuel)
      obtain ⟨more, rfl⟩ := Nat.exists_eq_add_one_of_ne_zero (Nat.ne_zero_of_lt hmore)
      have hlater : ∀ n, limits.reached (taken + 1 + n) = others.reached (start + 1 + n) := by
        intro n
        rw [Nat.add_assoc, Nat.add_assoc, hreached]
      rw [groupsFrom_of_cons h hmet, groupsFrom_of_cons h hmet, show limits.reached taken = _ from
        hreached 0, ih hlater (Nat.lt_of_succ_lt_succ hfuel) (Nat.lt_of_succ_lt_succ hmore)]
      rfl

theorem length_runs_lt (level : GroupLevel) (descending : Bool) (range : KeyRange) :
    (tree.runs level descending range).length < tree.countRange range.lo range.hi + 1 := by
  rw [← length_met h descending range]
  exact Nat.lt_succ_of_le (length_runs_le level)

theorem groups_of_nil (hmet : tree.met descending range = []) :
    groups r tree level descending range = [] := by
  rw [groups, reduceGroups, groupsFrom_of_nil h hmet]

theorem groups_of_cons (level : GroupLevel) (hmet : tree.met descending range = first :: rest) :
    groups r tree level descending range
      = firstGroup r tree level descending range first
        :: groups r tree level descending (behindFirst level descending range first) := by
  have hgo (n : Nat) : GroupLimits.reached {} n = false := Bool.and_false _
  have hfuel := length_runs_lt h level descending range
  rw [runs_behindFirst h level hmet, List.length_cons] at hfuel
  rw [groups, reduceGroups, groupsFrom_of_cons h hmet, hgo, if_neg Bool.false_ne_true]
  refine congrArg (firstGroup r tree level descending range first :: ·) ?_
  rw [groups, reduceGroups, groupsFrom_congr h level _ (fun n => (hgo _).trans (hgo _).symm)
    (Nat.lt_of_succ_lt_succ hfuel) (length_runs_lt h level descending _)]

theorem length_groups (level : GroupLevel) (descending : Bool) (range : KeyRange) :
    (groups r tree level descending range).length
      = (tree.runs level descending range).length := by
  induction range using range_induction h level descending with
  | nil range hmet => rw [groups_of_nil h hmet, (runs_eq_nil_iff level).mpr hmet]; rfl
  | cons range first rest hmet ih =>
      rw [groups_of_cons h level hmet, runs_behindFirst h level hmet, List.length_cons, ih,
        List.length_cons]

/-- A list of groups has the first of them. Where it ends before the others, the limits say so, and
the range goes on with these behind the cut. -/
theorem groupsFrom_spec (level : GroupLevel) (limits : GroupLimits) {fuel : Nat} (taken : Nat)
    (range : KeyRange) (hfuel : (tree.runs level descending range).length < fuel) :
    let items := groups r tree level descending range
    let page := groupsFrom r tree level descending limits fuel taken range
    ∃ n, page.1 = items.take n ∧ (∀ m < n, limits.reached (taken + m) = false) ∧
      (n = items.length ∧ page.2 = none ∨
        ∃ cut, n < items.length ∧ page.2 = some cut ∧
          groups r tree level descending (range.resume cut descending) = items.drop n ∧
          tree.runs level descending (range.resume cut descending)
            = (tree.runs level descending range).drop n ∧
          limits.reached (taken + n) = true) := by
  induction range using range_induction h level descending generalizing fuel taken with
  | nil range hmet =>
      rw [groupsFrom_of_nil h hmet, groups_of_nil h hmet]
      exact ⟨0, rfl, fun m hm => absurd hm (Nat.not_lt_zero m), .inl ⟨rfl, rfl⟩⟩
  | cons range first rest hmet ih =>
      have hitems := groups_of_cons h level hmet
      have hruns := runs_behindFirst h level hmet
      rw [hruns, List.length_cons] at hfuel
      obtain ⟨fuel, rfl⟩ := Nat.exists_eq_add_one_of_ne_zero (Nat.ne_zero_of_lt hfuel)
      rw [groupsFrom_of_cons h hmet]
      cases hreached : limits.reached taken with
      | true =>
          have hwhole : range.resume (if descending then range.hi else range.lo) descending
              = range := by
            cases descending <;> rfl
          rw [if_pos rfl]
          refine ⟨0, rfl, fun m hm => absurd hm (Nat.not_lt_zero m), .inr ⟨_, ?_, rfl, ?_, ?_, ?_⟩⟩
          · rw [hitems]
            exact Nat.succ_pos _
          · rw [hwhole]
            rfl
          · rw [hwhole]
            rfl
          · exact hreached
      | false =>
          obtain ⟨n, hpage, hgoing, hcases⟩ := ih (taken + 1) (Nat.lt_of_succ_lt_succ hfuel)
          rw [if_neg Bool.false_ne_true, hitems]
          refine ⟨n + 1, congrArg _ hpage, ?_, ?_⟩
          · intro m hm
            cases m with
            | zero => exact hreached
            | succ m =>
                rw [← Nat.add_assoc, Nat.add_right_comm]
                exact hgoing m (Nat.lt_of_succ_lt_succ hm)
          · rcases hcases with ⟨hall, hnone⟩ | ⟨cut, hlt, hcut, hothers, hleft, hstopped⟩
            · exact .inl ⟨congrArg (· + 1) hall, hnone⟩
            · rw [behindFirst, KeyRange.resume_resume] at hothers hleft
              refine .inr ⟨cut, Nat.succ_lt_succ hlt, hcut, hothers, ?_, ?_⟩
              · rw [hruns]
                exact hleft
              · rw [Nat.add_comm n, ← Nat.add_assoc]
                exact hstopped

/-- A page of groups has the first of them, as many as the limits let through. Where it ends before
the others, the range goes on with these behind the cut. -/
theorem reduceGroups_spec (level : GroupLevel) (descending : Bool) (limits : GroupLimits)
    (range : KeyRange) :
    let items := groups r tree level descending range
    let page := tree.reduceGroups r range level descending limits
    ∃ n, page.1 = items.take n ∧ (∀ m < n, limits.reached m = false) ∧
      (n = items.length ∧ page.2 = none ∨
        ∃ cut, n < items.length ∧ page.2 = some cut ∧
          groups r tree level descending (range.resume cut descending) = items.drop n ∧
          tree.runs level descending (range.resume cut descending)
            = (tree.runs level descending range).drop n ∧
          limits.reached n = true) := by
  have hspec := groupsFrom_spec h level limits 0 range (length_runs_lt h level descending range)
  simp only [Nat.zero_add] at hspec
  exact hspec

theorem decodes_of_mem_groupsFrom
    (hdecodes : ∀ e ∈ tree.toList, ∃ parts, e.id.key.Decodes parts) {limits : GroupLimits}
    {fuel taken : Nat} {group : EncodedKey × Aggregate}
    (hgroup : group ∈ (groupsFrom r tree level descending limits fuel taken range).1) :
    ∃ parts, group.1.Decodes parts := by
  induction fuel generalizing taken range with
  | zero => cases hgroup
  | succ fuel ih =>
      cases hmet : tree.met descending range with
      | nil => rw [groupsFrom_of_nil h hmet] at hgroup; cases hgroup
      | cons first rest =>
          rw [groupsFrom_of_cons h hmet] at hgroup
          split at hgroup
          next => cases hgroup
          next =>
            rcases List.mem_cons.mp hgroup with rfl | hlater
            · obtain ⟨parts, hparts⟩ := hdecodes first (mem_of_met_eq_cons hmet).1
              exact ⟨_, GroupLevel.decodes_label level hparts⟩
            · exact ih hlater

end WellFormed

/-! ## Groups of a lawful reducer -/

/-- The label of a run and the aggregate of its values in the order of keys. -/
def reducedRun (r : Reducer) (level : GroupLevel) (descending : Bool) (run : List Entry) :
    EncodedKey × Aggregate :=
  ((run.head?.map fun e => level.label e.id.key).getD default,
    r.reduceValues ((if descending then run.reverse else run).map Entry.value))

theorem reducedRun_count (level : GroupLevel) (descending : Bool) (run : List Entry) :
    reducedRun .count level descending run = countedRun level run := by
  have hcount := Reducer.total_count (if descending then run.reverse else run)
  rw [Reducer.total] at hcount
  rw [reducedRun, countedRun, hcount]
  cases descending with
  | false => rfl
  | true => rw [if_pos rfl, List.length_reverse]

theorem met_eq_listing (tree : Tree) (descending : Bool) (range : KeyRange) :
    tree.met false range
      = if descending then (tree.met descending range).reverse else tree.met descending range := by
  cases descending with
  | false => rfl
  | true => rw [if_pos rfl, met, met, listing, listing, if_pos rfl, List.filter_reverse,
      List.reverse_reverse, if_neg Bool.false_ne_true]

/-- The groups of a range are its runs, each with the aggregate of its values. -/
theorem groups_eq_map_runs (hr : r.Lawful) (h : tree.WellFormed r) (level : GroupLevel)
    (descending : Bool) (range : KeyRange) :
    groups r tree level descending range
      = (tree.runs level descending range).map (reducedRun r level descending) := by
  induction range using range_induction h level descending with
  | nil range hmet => rw [groups_of_nil h hmet, (runs_eq_nil_iff level).mpr hmet]; rfl
  | cons range first rest hmet ih =>
      obtain ⟨hgroup, -⟩ := met_splitGroup level h hmet
      have hself : sameGroup level first first = true := decide_eq_true rfl
      have hhead : ((tree.met descending range).filter (sameGroup level first)).head?
          = some first := by
        rw [hmet, List.filter_cons_of_pos hself, List.head?_cons]
      have hfirst : firstGroup r tree level descending range first
          = reducedRun r level descending
            ((tree.met descending range).filter (sameGroup level first)) := by
        rw [firstGroup, reducedRun, hhead, reduce_eq_total hr h, met_eq_listing tree descending,
          hgroup]
        rfl
      rw [groups_of_cons h level hmet, runs_behindFirst h level hmet, List.map_cons, ih, hfirst]

/-- The groups of a range are its runs, counted. -/
theorem groups_count (h : tree.WellFormed .count) (range : KeyRange) :
    groups .count tree level descending range
      = ((tree.met descending range).splitBy (sameGroup level)).map (countedRun level) := by
  rw [groups_eq_map_runs Reducer.lawful_count h, funext (reducedRun_count level descending)]
  rfl

end Tree

end ViewIndex
