import ViewIndex.Proofs.Tree.GroupCuts

/-!
# All groups, page by page

By a lawful reducer, the groups of a range are the runs of entries with one label, each with the
aggregate of its values, whatever the bytes of the keys are. The labels are in strict order. A call
that stops early returns a cut exactly if entries remain, and these are the entries behind the cut.
So calls that go on from cut to cut return, one after the other, what a single call returns.
-/

namespace ViewIndex.Tree

variable {r : Reducer} {tree : Tree} {level : GroupLevel} {descending : Bool} {range : KeyRange}

/-! ## The order of labels -/

/-- Whether a label comes before another in the direction of travel. -/
def LabelPrecedes (descending : Bool) (a b : EncodedKey) : Prop :=
  if descending then compare b a = .lt else compare a b = .lt

theorem LabelPrecedes.ne {a b : EncodedKey} (h : LabelPrecedes descending a b) : a ≠ b := by
  rintro rfl
  cases descending <;> exact absurd (Std.ReflOrd.compare_self.symm.trans h) (by decide)

theorem Precedes.label {a b : Entry} (h : Precedes descending a b)
    (hne : level.label b.id.key ≠ level.label a.id.key) :
    LabelPrecedes descending (level.label a.id.key) (level.label b.id.key) := by
  cases descending with
  | false => exact level.label_lt_label (EntryId.isLE_of_lt h).1 hne.symm
  | true => exact level.label_lt_label (EntryId.isLE_of_lt h).1 hne

/-- The labels of later runs come later. -/
theorem pairwise_runs (h : tree.WellFormed r) (level : GroupLevel) (descending : Bool)
    (range : KeyRange) : (tree.runs level descending range).Pairwise fun run later =>
      ∀ a ∈ run, ∀ b ∈ later,
        LabelPrecedes descending (level.label a.id.key) (level.label b.id.key) := by
  induction range using range_induction h level descending with
  | nil range hmet =>
      rw [(runs_eq_nil_iff level).mpr hmet]
      exact .nil
  | cons range first rest hmet ih =>
      obtain ⟨-, hothers⟩ := met_splitGroup level h hmet
      rw [splitGroup_snd] at hothers
      rw [runs_behindFirst h level hmet]
      refine List.pairwise_cons.mpr ⟨fun later hlater a ha b hb => ?_, ih⟩
      have hbehind := List.mem_flatten_of_mem hlater hb
      rw [flatten_runs, hothers, List.mem_filter, Bool.not_eq_true'] at hbehind
      have hlabel : level.label a.id.key = level.label first.id.key :=
        of_decide_eq_true (List.mem_filter.mp ha).2
      have hne : level.label b.id.key ≠ level.label first.id.key := of_decide_eq_false hbehind.2
      rw [hlabel]
      rcases precedes_of_met_eq_cons h hmet hbehind.1 with rfl | hprecedes
      · exact absurd rfl hne
      · exact hprecedes.label hne

theorem exists_mem_reducedRun (r : Reducer) (level : GroupLevel) (descending : Bool)
    {run : List Entry} (h : run ≠ []) :
    ∃ e ∈ run, (reducedRun r level descending run).1 = level.label e.id.key := by
  obtain ⟨e, rest, rfl⟩ := List.exists_cons_of_ne_nil h
  exact ⟨e, List.mem_cons_self, rfl⟩

theorem pairwise_labels (h : tree.WellFormed r) (level : GroupLevel) (descending : Bool)
    (range : KeyRange) :
    (((tree.runs level descending range).map (reducedRun r level descending)).map Prod.fst).Pairwise
      (LabelPrecedes descending) := by
  rw [List.map_map, List.pairwise_map]
  refine (pairwise_runs h level descending range).imp_of_mem fun {run later} hrun hlater hall => ?_
  obtain ⟨a, ha, hlabel⟩ :=
    exists_mem_reducedRun r level descending (List.ne_nil_of_mem_splitBy hrun)
  obtain ⟨b, hb, hlabel'⟩ :=
    exists_mem_reducedRun r level descending (List.ne_nil_of_mem_splitBy hlater)
  rw [Function.comp_apply, Function.comp_apply, hlabel, hlabel']
  exact hall a ha b hb

/-! ## One page -/

theorem GroupLimits.pos_of_reached {limits : GroupLimits} {taken : Nat}
    (hlimit : limits.limit ≠ some 0) (h : limits.reached taken = true) : 0 < taken := by
  rw [Nat.pos_iff_ne_zero]
  rintro rfl
  rw [reached, any_le_zero hlimit] at h
  cases h

/-- A page has the first runs. Either these are all, or it ends with a cut behind which the others
are. -/
theorem reduceGroups_page (hr : r.Lawful) (h : tree.WellFormed r) (level : GroupLevel)
    (descending : Bool) (limits : GroupLimits) (range : KeyRange) :
    let runs := tree.runs level descending range
    let page := tree.reduceGroups r range level descending limits
    page.1 = (runs.map (reducedRun r level descending)).take page.1.length ∧
      (page.1.length = runs.length ∧ page.2 = none ∨
        ∃ cut, page.1.length < runs.length ∧ page.2 = some cut ∧
          tree.runs level descending (range.resume cut descending) = runs.drop page.1.length ∧
          limits.reached page.1.length = true) := by
  intro runs page
  obtain ⟨n, hpage, -, hcases⟩ := reduceGroups_spec h level descending limits range
  rw [length_groups h, groups_eq_map_runs hr h] at hcases
  rw [groups_eq_map_runs hr h] at hpage
  have hle : n ≤ runs.length := by
    rcases hcases with ⟨hall, -⟩ | ⟨_, hlt, -⟩
    · exact Nat.le_of_eq hall
    · exact Nat.le_of_lt hlt
  have hlength : page.1.length = n := by
    rw [show page.1 = _ from hpage, List.length_take, List.length_map, Nat.min_eq_left hle]
  rw [hlength]
  refine ⟨hpage, ?_⟩
  rcases hcases with ⟨hall, hnone⟩ | ⟨cut, hlt, hcut, -, hleft, hreached⟩
  · exact .inl ⟨hall, hnone⟩
  · exact .inr ⟨cut, hlt, hcut, hleft, hreached⟩

/-- A page ends with a cut exactly if entries remain, and these are the entries behind the cut. -/
theorem reduceGroups_left (hr : r.Lawful) (h : tree.WellFormed r) (level : GroupLevel)
    (descending : Bool) (limits : GroupLimits) (range : KeyRange) :
    let page := tree.reduceGroups r range level descending limits
    let left := ((tree.runs level descending range).drop page.1.length).flatten
    (page.2.isSome ↔ left ≠ []) ∧
      ∀ cut, page.2 = some cut → tree.met descending (range.resume cut descending) = left := by
  intro page left
  obtain ⟨-, hcases⟩ := reduceGroups_page hr h level descending limits range
  change page.1.length = _ ∧ page.2 = none ∨ ∃ cut, page.1.length < _ ∧ page.2 = some cut ∧ _
    at hcases
  rcases hcases with ⟨hall, hnone⟩ | ⟨cut, hlt, hcut, hleft, -⟩
  · have hnothing : left = [] := by
      change ((tree.runs level descending range).drop page.1.length).flatten = []
      rw [hall, List.drop_length, List.flatten_nil]
    rw [hnone, hnothing]
    refine ⟨by simp, fun cut hcut => ?_⟩
    cases hcut
  · have hmet : tree.met descending (range.resume cut descending) = left := by
      rw [← flatten_runs level, hleft]
    have hremain : left ≠ [] := by
      rw [← hmet, Ne, ← runs_eq_nil_iff level, hleft, List.drop_eq_nil_iff]
      exact Nat.not_le_of_lt hlt
    rw [hcut]
    refine ⟨by simpa using hremain, fun other hother => ?_⟩
    cases hother
    exact hmet

/-- Without limits all runs are on one page. -/
theorem reduceGroups_unlimited (hr : r.Lawful) (h : tree.WellFormed r) (level : GroupLevel)
    (descending : Bool) (range : KeyRange) :
    tree.reduceGroups r range level descending {}
      = ((tree.runs level descending range).map (reducedRun r level descending), none) := by
  obtain ⟨hpage, hcases⟩ := reduceGroups_page hr h level descending {} range
  rcases hcases with ⟨hall, hnone⟩ | ⟨_, -, -, -, hreached⟩
  · rw [hall, ← List.length_map (reducedRun r level descending), List.take_length] at hpage
    exact Prod.ext hpage hnone
  · rw [show GroupLimits.reached {} _ = false from Bool.and_false _] at hreached
    cases hreached

/-! ## Page after page -/

/-- The pages that calls with these limits return, each of which goes on where the one before it was
cut short. -/
def groupPages (r : Reducer) (tree : Tree) (level : GroupLevel) (descending : Bool) :
    List GroupLimits → KeyRange → List GroupRows
  | [], _ => []
  | limits :: later, range =>
      let page := tree.reduceGroups r range level descending limits
      match page.2 with
      | none => [page]
      | some cut => page :: groupPages r tree level descending later (range.resume cut descending)

/-- The last page was not cut short. -/
def EndsUncut (pages : List GroupRows) : Prop := ∃ last ∈ pages.getLast?, last.2 = none

theorem endsUncut_cons {page : GroupRows} {later : List GroupRows} {cut : Cut}
    (hcut : page.2 = some cut) : EndsUncut (page :: later) ↔ EndsUncut later := by
  cases later with
  | nil => simp [EndsUncut, hcut]
  | cons next others => rw [EndsUncut, EndsUncut, List.getLast?_cons_cons]

/-- Pages that end uncut have all runs, and as many calls as there are runs are enough if each may
return one. -/
theorem groupPages_spec (hr : r.Lawful) (h : tree.WellFormed r) (level : GroupLevel)
    (descending : Bool) (requests : List GroupLimits) (range : KeyRange)
    (hlimits : ∀ limits ∈ requests, limits.limit ≠ some 0) :
    let rows := (tree.runs level descending range).map (reducedRun r level descending)
    let pages := groupPages r tree level descending requests range
    (EndsUncut pages → pages.flatMap Prod.fst = rows) ∧
      (requests ≠ [] → rows.length ≤ requests.length → EndsUncut pages) := by
  induction requests generalizing range with
  | nil =>
      refine ⟨?_, fun hne => absurd rfl hne⟩
      rintro ⟨last, hlast, -⟩
      cases hlast
  | cons limits later ih =>
      intro rows pages
      obtain ⟨hpage, hcases⟩ := reduceGroups_page hr h level descending limits range
      rcases hcases with ⟨hall, hnone⟩ | ⟨cut, hlt, hcut, hleft, hreached⟩
      · have hpages : pages = [tree.reduceGroups r range level descending limits] := by
          change groupPages r tree level descending (limits :: later) range = _
          rw [groupPages, hnone]
        rw [hall, ← List.length_map (reducedRun r level descending), List.take_length] at hpage
        rw [hpages, List.flatMap_singleton]
        exact ⟨fun _ => hpage, fun _ _ => ⟨_, rfl, hnone⟩⟩
      · have hpages : pages = tree.reduceGroups r range level descending limits
            :: groupPages r tree level descending later (range.resume cut descending) := by
          change groupPages r tree level descending (limits :: later) range = _
          rw [groupPages, hcut]
        obtain ⟨hrows, hends⟩ := ih (range.resume cut descending) fun limits hmem =>
          hlimits limits (List.mem_cons_of_mem _ hmem)
        rw [hleft, List.map_drop] at hrows hends
        rw [hpages, endsUncut_cons hcut, List.flatMap_cons]
        constructor
        · intro huncut
          rw [hrows huncut]
          exact (congrArg (· ++ _) hpage).trans (List.take_append_drop _ rows)
        · intro _ henough
          have hpos := GroupLimits.pos_of_reached (hlimits limits List.mem_cons_self) hreached
          have hlength : rows.length = (tree.runs level descending range).length :=
            List.length_map _
          rw [List.length_cons] at henough
          apply hends
          · rintro rfl
            rw [List.length_nil] at henough
            omega
          · rw [List.length_drop, List.length_map, ← hlength]
            omega

/-- Whatever the keys are, grouping a range comes to an end and returns, for each run of entries
with one label in the direction of travel, this label and the aggregate of the run's values in the
order of keys. No label comes up twice, and they are in strict order. With limits, a page has the
first of these groups and returns a cut exactly if entries remain, which are then those behind the
cut. Pages that go on from cut to cut until none is returned have the same groups, and such pages
come to an end if each may have a group. -/
theorem reduceGroups_eq_runs (hr : r.Lawful) (h : tree.WellFormed r) (lo hi : Cut)
    (level : GroupLevel) (descending : Bool) :
    let range := KeyRange.mk lo hi
    let runs := (tree.cursor range descending).toList.splitBy (sameGroup level)
    let rows := runs.map (reducedRun r level descending)
    tree.reduceGroups r range level descending {} = (rows, none) ∧
    (∀ (limits : GroupLimits) (fuel : Nat), rows.length < fuel →
      groupsFrom r tree level descending limits fuel 0 range
        = tree.reduceGroups r range level descending limits) ∧
    (rows.map Prod.fst).Nodup ∧
    (rows.map Prod.fst).Pairwise (LabelPrecedes descending) ∧
    (∀ limits : GroupLimits,
      let page := tree.reduceGroups r range level descending limits
      let left := (runs.drop page.1.length).flatten
      page.1 = rows.take page.1.length ∧ (page.2.isSome ↔ left ≠ []) ∧
      ∀ cut, page.2 = some cut →
        (tree.cursor (range.resume cut descending) descending).toList = left) ∧
    ∀ requests : List GroupLimits, (∀ limits ∈ requests, limits.limit ≠ some 0) →
      let pages := groupPages r tree level descending requests range
      (EndsUncut pages → pages.flatMap Prod.fst = rows) ∧
      (requests ≠ [] → rows.length ≤ requests.length → EndsUncut pages) := by
  intro range runs rows
  have hruns : runs = tree.runs level descending range := by
    rw [Tree.runs, ← toList_cursor_eq_met h]
  have hordered := pairwise_labels h level descending range
  refine ⟨?_, fun limits fuel hfuel => ?_, ?_, ?_, fun limits => ?_, fun requests hlimits => ?_⟩
  · rw [reduceGroups_unlimited hr h, ← hruns]
  · rw [List.length_map, hruns] at hfuel
    exact groupsFrom_congr h level range (fun _ => rfl) hfuel (length_runs_lt h level descending _)
  · rw [← hruns] at hordered
    exact hordered.imp LabelPrecedes.ne
  · rwa [← hruns] at hordered
  · obtain ⟨hpage, -⟩ := reduceGroups_page hr h level descending limits range
    obtain ⟨hcut, hleft⟩ := reduceGroups_left hr h level descending limits range
    rw [← hruns] at hpage hcut hleft
    refine ⟨hpage, hcut, fun cut hnext => ?_⟩
    rw [toList_cursor_eq_met h]
    exact hleft cut hnext
  · rw [show rows = _ from congrArg _ hruns]
    exact groupPages_spec hr h level descending requests range hlimits

/-- Back from the last key: one that does not decode, then keys that begin with two components, one
of them followed by a byte that is none and one cut off by the range. Two calls have a group each,
the second one though its time is up. -/
theorem reduceGroups_eq_runs_sample :
    let r := Reducer.custom collecting
    let range := KeyRange.mk (.afterEntry (sampleEntry [0x10, 0x20] "a" 0).id) .finish
    let rows : List (EncodedKey × Aggregate) :=
      [(⟨[0xFF]⟩, .custom (.array [(sampleEntry [0xFF] "a" 0).value])),
        (⟨[0x10, 0x20]⟩, .custom (.array [(sampleEntry [0x10, 0x20] "a" 1).value,
          (sampleEntry [0x10, 0x20] "b" 0).value,
          (sampleEntry [0x10, 0x20, 0xFF] "a" 0).value]))]
    (sampleTree r).reduceGroups r range (.components 2) true {} = (rows, none) ∧
    (groupPages r (sampleTree r) (.components 2) true
      [{ limit := some 1 }, { expired := fun _ => true }] range).flatMap Prod.fst = rows := by
  intro r range rows
  obtain ⟨hwhole, -, -, -, -, hchains⟩ := reduceGroups_eq_runs lawful_collecting
    wellFormed_sampleTree (.afterEntry (sampleEntry [0x10, 0x20] "a" 0).id) .finish
    (.components 2) true
  have hruns : ((sampleTree r).cursor range true).toList.splitBy (sameGroup (.components 2))
      = [[sampleEntry [0xFF] "a" 0], [sampleEntry [0x10, 0x20, 0xFF] "a" 0,
        sampleEntry [0x10, 0x20] "b" 0, sampleEntry [0x10, 0x20] "a" 1]] := by
    rw [toList_cursor_eq_met wellFormed_sampleTree, met, listing, toList_sampleTree]
    decide +kernel
  have hrows : (((sampleTree r).cursor range true).toList.splitBy (sameGroup (.components 2))).map
      (reducedRun r (.components 2) true) = rows := by
    rw [hruns]
    rfl
  obtain ⟨hall, hends⟩ := hchains [{ limit := some 1 }, { expired := fun _ => true }] (by simp)
  refine ⟨hwhole.trans (congrArg (·, none) hrows), (hall (hends ?_ ?_)).trans hrows⟩
  · exact List.cons_ne_nil _ _
  · exact Nat.le_of_eq (congrArg List.length hrows)

end ViewIndex.Tree
