import ViewIndex.Proofs.Query.Resuming

/-!
# Pages one after the other

A reader who goes on from the cut of each answer reads a view page by page, while batches are
written between one page and the next. A cut tells which entries are behind it in any snapshot, so
the pages never turn back: nothing is read twice, and whatever is there all the time is read.
-/

namespace ViewIndex

/-- What is asked of the next page, and what is written before it is read. -/
structure PageRequest where
  writes : List IndexStore.Write := []
  limit : Option Nat := none
  expired : Nat → Bool := fun _ => false

/-- The query for the page behind a cut. What was skipped is not skipped again. -/
def PageRequest.options (request : PageRequest) (options : QueryOptions) (cut : Cut) :
    QueryOptions :=
  { options.resumedAt cut with skip := 0, limit := request.limit, expired := request.expired }

/-- A page that was read: what was asked of which snapshot, and the answer. -/
structure PageRead where
  snapshot : Snapshot
  options : QueryOptions
  answer : ViewResult

/-- Reads a page, and the ones behind it as long as the answers have continuations. -/
def IndexStore.readPages (reducer : Option Reducer) (store : IndexStore)
    (options : QueryOptions) : List PageRequest → Except QueryError (List PageRead)
  | [] => do
      let answer ← store.current.query reducer options
      return [⟨store.current, options, answer⟩]
  | request :: later => do
      let answer ← store.current.query reducer options
      match answer.continuation with
      | none => return [⟨store.current, options, answer⟩]
      | some cut =>
          let pages ← readPages reducer (request.writes.foldl write store)
            (request.options options cut) later
          return ⟨store.current, options, answer⟩ :: pages

/-- The entries that the rows of a page stand for. -/
def PageRead.listed (reducer : Option Reducer) (page : PageRead) : List Entry :=
  match page.options.plan reducer with
  | .ok plan => (page.snapshot.listRanges page.options plan.ranges page.options.skip 0).rows
  | .error _ => []

/-- The last page that was read was not cut short. -/
def ReadToEnd (pages : List PageRead) : Prop :=
  ∃ last ∈ pages.getLast?, last.answer.continuation = none

theorem readToEnd_singleton {page : PageRead} :
    ReadToEnd [page] ↔ page.answer.continuation = none := by
  simp [ReadToEnd]

/-- Behind a page that was cut short, it depends on the later ones. -/
theorem readToEnd_cons {page : PageRead} {later : List PageRead} {cut : Cut}
    (hcut : page.answer.continuation = some cut) :
    ReadToEnd (page :: later) ↔ ReadToEnd later := by
  cases later with
  | nil => simp [ReadToEnd, hcut]
  | cons next others => rw [ReadToEnd, ReadToEnd, List.getLast?_cons_cons]

/-! ## Behind a cut -/

namespace Tree

variable {descending : Bool} {a b c : Entry}

theorem Precedes.trans (hab : Precedes descending a b) (hbc : Precedes descending b c) :
    Precedes descending a c := by
  cases descending with
  | false => exact Std.TransCmp.lt_trans (show compare a.id b.id = .lt from hab) hbc
  | true => exact Std.TransCmp.lt_trans (show compare c.id b.id = .lt from hbc) hab

theorem Precedes.ne (h : Precedes descending a b) : a.id ≠ b.id := by
  intro heq
  cases descending with
  | false =>
      have hlt : compare a.id b.id = .lt := h
      rw [heq, Std.ReflOrd.compare_self] at hlt
      cases hlt
  | true =>
      have hlt : compare b.id a.id = .lt := h
      rw [heq, Std.ReflOrd.compare_self] at hlt
      cases hlt

/-- Entries that follow one another are there once. -/
theorem count_id_eq_one {entries : List Entry} (h : entries.Pairwise (Precedes descending))
    {id : EntryId} (hmem : id ∈ entries.map Entry.id) : (entries.map Entry.id).count id = 1 :=
  List.count_eq_one_of_mem (List.pairwise_map.mpr (h.imp Precedes.ne)) hmem

end Tree

/-- What is left of a range behind one of its entries are the entries that come after it. -/
theorem KeyRange.holds_resume {range : KeyRange} {last e : Entry} {descending : Bool}
    (hlast : range.holds last.id = true) :
    (range.resume (Snapshot.cutBehind last descending) descending).holds e.id = true ↔
      range.holds e.id = true ∧ Tree.Precedes descending last e := by
  simp only [KeyRange.holds, Bool.and_eq_true, Bool.not_eq_true'] at hlast ⊢
  obtain ⟨hlo, hhi⟩ := hlast
  cases descending with
  | false =>
      have hbehind : (compare e.id last.id).isLE = false ↔ Tree.Precedes false last e := by
        change _ ↔ compare last.id e.id = .lt
        rw [← Std.OrientedCmp.gt_iff_lt]
        cases compare e.id last.id <;> decide
      have hinside (h : Tree.Precedes false last e) : range.lo.isAfter e.id = false := by
        rw [← Bool.not_eq_true]
        intro hbefore
        rw [Cut.isAfter_of_lt h hbefore] at hlo
        cases hlo
      change (compare e.id last.id).isLE = false ∧ _ ↔ _
      rw [hbehind]
      constructor
      · rintro ⟨h, he⟩
        exact ⟨⟨hinside h, he⟩, h⟩
      · rintro ⟨⟨-, he⟩, h⟩
        exact ⟨h, he⟩
  | true =>
      have hbehind : (compare e.id last.id).isLT = true ↔ Tree.Precedes true last e :=
        Ordering.isLT_iff_eq_lt
      change _ ∧ (compare e.id last.id).isLT = true ↔ _
      rw [hbehind]
      constructor
      · rintro ⟨he, h⟩
        exact ⟨⟨he, Cut.isAfter_of_lt h hhi⟩, h⟩
      · rintro ⟨⟨he, -⟩, h⟩
        exact ⟨he, h⟩

/-- Of the entries whose keys decode, a range holds those of a kind. -/
def KeyRange.Covers (range : KeyRange) (kind : Entry → Prop) : Prop :=
  ∀ e parts, e.id.key.Decodes parts → (range.holds e.id = true ↔ kind e)

theorem KeyRange.Covers.resume {range : KeyRange} {kind : Entry → Prop} {last : Entry}
    {descending : Bool} (h : range.Covers kind) (hlast : range.holds last.id = true) :
    (range.resume (Snapshot.cutBehind last descending) descending).Covers
      fun e => kind e ∧ Tree.Precedes descending last e := by
  intro e parts hparts
  rw [KeyRange.holds_resume hlast, h e parts hparts]

/-! ## Pages of entries -/

variable {reducer : Option Reducer} {options : QueryOptions}

namespace Snapshot

variable {snapshot : Snapshot} {r : Reducer} {range : KeyRange}

/-- A query for entries that reads one range lists all of them, or is cut short behind one. -/
theorem exists_page (h : snapshot.tree.WellFormed r)
    (hdecodes : ∀ e ∈ snapshot.tree.toList, ∃ parts, e.id.key.Decodes parts)
    (hplan : options.plan reducer = .ok ⟨[range], .entries⟩) (hskip : options.skip = 0)
    (hlimit : options.limit ≠ some 0) :
    ∃ answer, snapshot.query reducer options = .ok answer ∧
      let page : PageRead := ⟨snapshot, options, answer⟩
      let items := snapshot.tree.met options.descending range
      answer.rows = (page.listed reducer).map (fun e => e.plain.row) ∧
        (answer.continuation = none ∧ page.listed reducer = items ∨
          ∃ before last rest, answer.continuation = some (cutBehind last options.descending) ∧
            page.listed reducer = before ++ [last] ∧ items = before ++ last :: rest) := by
  obtain ⟨answer, hanswer, hrows, hcontinuation⟩ :=
    exists_query_of_entries options h hdecodes hplan rfl
  obtain ⟨hlisted, hnext⟩ := listRanges_singleton snapshot range hlimit
  have hpage := scan_cases h range
    ⟨options.limit, options.skip, options.descending, options.expired⟩ hlimit
  simp only [hskip, List.drop_zero] at hlisted hnext hpage
  rw [continuationOf_singleton, hskip, hnext] at hcontinuation
  have hentries : (PageRead.mk snapshot options answer).listed reducer
      = (snapshot.scan range ⟨options.limit, 0, options.descending, options.expired⟩).rows := by
    simp only [PageRead.listed, hplan, hskip, hlisted]
  refine ⟨answer, hanswer, ?_, ?_⟩
  · rw [hentries, hrows, ← hlisted, hskip]
  · rw [hentries, hcontinuation]
    rcases hpage with hwhole | ⟨before, last, rest, hcut, hlist, hitems, -⟩
    · exact .inl hwhole
    · exact .inr ⟨before, last, rest, hcut, hlist, hitems⟩

end Snapshot

/-- Pages go through the entries of a kind: they show such entries of their snapshots, each of them
behind the one before. If the last page was not cut short, what is in the snapshots of all pages is
shown exactly once. -/
structure PagesThrough (reducer : Option Reducer) (descending : Bool) (kind : Entry → Prop)
    (pages : List PageRead) : Prop where
  rows : ∀ page ∈ pages, page.answer.rows = (page.listed reducer).map fun e => e.plain.row
  mem : ∀ page ∈ pages, ∀ e ∈ page.listed reducer, e ∈ page.snapshot.entries ∧ kind e
  ordered : (pages.flatMap (PageRead.listed reducer)).Pairwise (Tree.Precedes descending)
  /-- A page that was cut short shows something, so that reading gets ahead. -/
  advances : ∀ page ∈ pages, page.answer.continuation.isSome = true → page.listed reducer ≠ []
  complete : ReadToEnd pages → ∀ id,
    (∀ page ∈ pages, ∃ e ∈ page.snapshot.entries, e.id = id ∧ kind e) →
      ((pages.flatMap (PageRead.listed reducer)).map Entry.id).count id = 1

namespace PagesThrough

variable {descending : Bool} {kind : Entry → Prop} {page : PageRead} {later : List PageRead}

theorem nil : PagesThrough reducer descending kind [] where
  rows _ hpage := absurd hpage List.not_mem_nil
  mem _ hpage := absurd hpage List.not_mem_nil
  ordered := .nil
  advances _ hpage := absurd hpage List.not_mem_nil
  complete := fun ⟨_, hlast, _⟩ => nomatch hlast

/-- A page that shows everything is the last one. -/
theorem singleton (hrows : page.answer.rows = (page.listed reducer).map fun e => e.plain.row)
    (hordered : (page.listed reducer).Pairwise (Tree.Precedes descending))
    (hmem : ∀ e, e ∈ page.listed reducer ↔ e ∈ page.snapshot.entries ∧ kind e)
    (hwhole : page.answer.continuation = none) :
    PagesThrough reducer descending kind [page] where
  rows := List.forall_mem_singleton.mpr hrows
  mem := List.forall_mem_singleton.mpr fun e => (hmem e).mp
  ordered := by rwa [List.flatMap_singleton]
  advances := List.forall_mem_singleton.mpr fun hsome => by rw [hwhole] at hsome; cases hsome
  complete := by
    intro _ id hid
    rw [List.flatMap_singleton]
    obtain ⟨e, he, rfl, hkind⟩ := hid page (List.mem_singleton.mpr rfl)
    exact Tree.count_id_eq_one hordered (List.mem_map_of_mem ((hmem e).mpr ⟨he, hkind⟩))

/-- Behind the last entry of a page that was cut short, the later pages go on. -/
theorem cons {before rest : List Entry} {last : Entry}
    (hrows : page.answer.rows = (page.listed reducer).map fun e => e.plain.row)
    (hlisted : page.listed reducer = before ++ [last])
    (hordered : (before ++ last :: rest).Pairwise (Tree.Precedes descending))
    (hmem : ∀ e, e ∈ before ++ last :: rest ↔ e ∈ page.snapshot.entries ∧ kind e)
    {cut : Cut} (hcut : page.answer.continuation = some cut)
    (hlater : PagesThrough reducer descending
      (fun e => kind e ∧ Tree.Precedes descending last e) later) :
    PagesThrough reducer descending kind (page :: later) := by
  obtain ⟨hbefore, hrest, hcross⟩ := List.pairwise_append.mp hordered
  have hparts : before ++ last :: rest = (before ++ [last]) ++ rest := by simp
  have hall : (page.listed reducer ++ later.flatMap (PageRead.listed reducer)).Pairwise
      (Tree.Precedes descending) := by
    rw [hlisted]
    refine List.pairwise_append.mpr ⟨?_, hlater.ordered, fun a ha b hb => ?_⟩
    · rw [hparts] at hordered
      exact (List.pairwise_append.mp hordered).1
    · obtain ⟨other, hother, hb⟩ := List.mem_flatMap.mp hb
      have hbehind := (hlater.mem other hother b hb).2.2
      rcases List.mem_append.mp ha with ha | ha
      · exact (hcross a ha last List.mem_cons_self).trans hbehind
      · rw [List.mem_singleton.mp ha]
        exact hbehind
  have hshown : ∀ e ∈ page.listed reducer, e ∈ page.snapshot.entries ∧ kind e := by
    intro e he
    rw [hlisted] at he
    exact (hmem e).mp (hparts ▸ List.mem_append_left _ he)
  refine ⟨List.forall_mem_cons.mpr ⟨hrows, hlater.rows⟩, List.forall_mem_cons.mpr ⟨hshown, ?_⟩,
    by rwa [List.flatMap_cons], List.forall_mem_cons.mpr ⟨fun _ => ?_, hlater.advances⟩, ?_⟩
  · intro other hother e he
    obtain ⟨hpresent, hkind, -⟩ := hlater.mem other hother e he
    exact ⟨hpresent, hkind⟩
  · rw [hlisted]
    simp
  · intro hend id hid
    rw [List.flatMap_cons]
    apply Tree.count_id_eq_one hall
    rw [List.map_append, List.mem_append]
    obtain ⟨e, he, rfl, hkind⟩ := hid page List.mem_cons_self
    have hitem := (hmem e).mpr ⟨he, hkind⟩
    rw [hparts, ← hlisted, List.mem_append] at hitem
    -- What this page does not show comes after its last entry, in every snapshot.
    refine hitem.imp List.mem_map_of_mem fun hleft => ?_
    have hbehind : Tree.Precedes descending last e := List.rel_of_pairwise_cons hrest hleft
    have hcount := hlater.complete ((readToEnd_cons hcut).mp hend) e.id fun other hother => by
      obtain ⟨e', he', hid', hkind'⟩ := hid other (List.mem_cons_of_mem _ hother)
      refine ⟨e', he', hid', hkind', ?_⟩
      rwa [Tree.Precedes, hid']
    exact List.one_le_count_iff.mp (Nat.le_of_eq hcount.symm)

end PagesThrough

/-! ## Reading a store -/

/-- Later pages are asked for with a limit of one at least, and after writes of encoded keys. -/
structure PageRequest.Valid (request : PageRequest) : Prop where
  distinct : ∀ w ∈ request.writes, w.Distinct
  encoded : ∀ w ∈ request.writes, w.Encoded
  limit : request.limit ≠ some 0

namespace IndexStore

variable {store : IndexStore} {contents : Contents} {answer : ViewResult}

theorem readPages_of_none (hanswer : store.current.query reducer options = .ok answer)
    (hnone : answer.continuation = none) (requests : List PageRequest) :
    store.readPages reducer options requests = .ok [⟨store.current, options, answer⟩] := by
  cases requests with
  | nil => rw [readPages, hanswer]; rfl
  | cons request later => simp only [readPages, hanswer, bind, Except.bind, hnone]; rfl

theorem readPages_nil (hanswer : store.current.query reducer options = .ok answer) :
    store.readPages reducer options [] = .ok [⟨store.current, options, answer⟩] := by
  rw [readPages, hanswer]
  rfl

theorem readPages_cons {cut : Cut} {request : PageRequest} {later : List PageRequest}
    {pages : List PageRead} (hanswer : store.current.query reducer options = .ok answer)
    (hcut : answer.continuation = some cut)
    (hpages : (request.writes.foldl write store).readPages reducer (request.options options cut)
      later = .ok pages) :
    store.readPages reducer options (request :: later)
      = .ok (⟨store.current, options, answer⟩ :: pages) := by
  simp only [readPages, hanswer, bind, Except.bind, hcut, hpages]
  rfl

section Entries

variable {range : KeyRange} {kind : Entry → Prop}

/-- A page shows all that its range covers, or it is cut short behind an entry and leaves to later
pages what comes after it. -/
theorem Holds.exists_page (h : store.Holds contents) (hencoded : contents.Encoded)
    (hplan : options.plan reducer = .ok ⟨[range], .entries⟩) (hskip : options.skip = 0)
    (hlimit : options.limit ≠ some 0) (hcovers : range.Covers kind) :
    ∃ answer, store.current.query reducer options = .ok answer ∧
      let page : PageRead := ⟨store.current, options, answer⟩
      (answer.continuation = none ∧ PagesThrough reducer options.descending kind [page] ∨
        ∃ cut left, answer.continuation = some cut ∧
          (range.resume cut options.descending).Covers left ∧
          ∀ later, PagesThrough reducer options.descending left later →
            PagesThrough reducer options.descending kind (page :: later)) := by
  have hwellFormed := h.reflects.wellFormed
  have hdecodes : ∀ e ∈ store.current.tree.toList, ∃ parts, e.id.key.Decodes parts :=
    fun e he => h.decodes hencoded he
  have hordered : (store.current.tree.met options.descending range).Pairwise
      (Tree.Precedes options.descending) :=
    (Tree.pairwise_listing hwellFormed.ascending options.descending).filter _
  have hmem (e : Entry) : e ∈ store.current.tree.met options.descending range ↔
      e ∈ store.current.entries ∧ kind e := by
    rw [Tree.mem_met, h.entries_eq]
    refine and_congr_right fun he => ?_
    obtain ⟨parts, hparts⟩ := hdecodes e he
    exact hcovers e parts hparts
  obtain ⟨answer, hanswer, hrows, hpage⟩ :=
    Snapshot.exists_page hwellFormed hdecodes hplan hskip hlimit
  refine ⟨answer, hanswer, ?_⟩
  rcases hpage with ⟨hnone, hlisted⟩ | ⟨before, last, rest, hcut, hlisted, hitems⟩
  · rw [← hlisted] at hordered hmem
    exact .inl ⟨hnone, .singleton hrows hordered hmem hnone⟩
  · have hlast : range.holds last.id = true := by
      have hmet : last ∈ store.current.tree.met options.descending range := by
        rw [hitems]
        simp
      exact (Tree.mem_met.mp hmet).2
    rw [hitems] at hordered hmem
    exact .inr ⟨_, _, hcut, hcovers.resume hlast,
      fun later => .cons hrows hlisted hordered hmem hcut⟩

/-- Pages go through what the range of the first one covers, whatever is written in between. -/
theorem Holds.pagesThrough (h : store.Holds contents) (hencoded : contents.Encoded)
    (hkeys : options.keys = none) (hplan : options.plan reducer = .ok ⟨[range], .entries⟩)
    (hskip : options.skip = 0) (hlimit : options.limit ≠ some 0) (hcovers : range.Covers kind)
    {requests : List PageRequest} (hrequests : ∀ request ∈ requests, request.Valid) :
    ∃ pages, store.readPages reducer options requests = .ok pages ∧
      PagesThrough reducer options.descending kind pages := by
  induction requests generalizing store contents options range kind with
  | nil =>
      obtain ⟨answer, hanswer, hpage⟩ := h.exists_page hencoded hplan hskip hlimit hcovers
      refine ⟨_, readPages_nil hanswer, ?_⟩
      rcases hpage with ⟨-, hthrough⟩ | ⟨cut, left, -, -, hgoes⟩
      · exact hthrough
      · exact hgoes [] .nil
  | cons request later ih =>
      obtain ⟨answer, hanswer, hpage⟩ := h.exists_page hencoded hplan hskip hlimit hcovers
      obtain ⟨hrequest, hlater⟩ := List.forall_mem_cons.mp hrequests
      rcases hpage with ⟨hnone, hthrough⟩ | ⟨cut, left, hcut, hleft, hgoes⟩
      · exact ⟨_, readPages_of_none hanswer hnone _, hthrough⟩
      · have hkeys' : (request.options options cut).keys = none := hkeys
        have hresumed : (request.options options cut).plan reducer
            = .ok ⟨[range.resume cut options.descending], .entries⟩ :=
          QueryOptions.plan_resumedAt hkeys hplan cut
        obtain ⟨pages, hpages, hthrough⟩ := ih (h.foldl_write hrequest.distinct).1
          (hencoded.foldl_write hrequest.encoded) hkeys' hresumed rfl hrequest.limit hleft hlater
        exact ⟨_, readPages_cons hanswer hcut hpages, hgoes pages hthrough⟩

end Entries

/-- After any writes of encoded keys, a query for entries that is accepted, names no list of keys
and skips nothing is read page by page, with any limits and clocks and with any writes in between.
The pages go through the entries that its selector selects. -/
theorem pages_through_selected (view : View) (writes : List Write)
    (hdistinct : ∀ w ∈ writes, w.Distinct) (hencoded : ∀ w ∈ writes, w.Encoded)
    (options : QueryOptions) (hreduce : options.reduce.getD view.reducer.isSome = false)
    (hkeys : options.keys = none) (hcontinuation : options.continuation = none)
    (hskip : options.skip = 0) (hlimit : options.limit ≠ some 0)
    (plan : Plan) (hplan : options.plan view.reducer = .ok plan)
    (requests : List PageRequest) (hrequests : ∀ request ∈ requests, request.Valid) :
    ∃ selector pages, options.selectors = .ok [selector] ∧
      (writes.foldl write (empty view.name view.reducer)).readPages view.reducer options requests
        = .ok pages ∧
      PagesThrough view.reducer options.descending
        (fun e => options.selects selector e.plain = true) pages := by
  obtain ⟨hholds, -⟩ := (holds_empty view.name view.reducer).foldl_write hdistinct
  have hkeysEncoded := Contents.encoded_empty.foldl_write hencoded
  obtain ⟨hshape, selectors, hselectors, hagree⟩ :=
    QueryOptions.exists_of_plan hplan hcontinuation
  obtain ⟨selector, rfl⟩ := QueryOptions.exists_of_selectors hkeys hselectors
  obtain ⟨ranges, shape⟩ := plan
  obtain rfl : shape = .entries := QueryOptions.shape_eq_entries hreduce hshape
  rcases hagree.realizes with hrealizes | ⟨hnone, vain, hvain, hselects⟩
  · cases hrealizes with
    | @cons range _ _ _ hrange hnil =>
        cases hnil
        have hcovers : range.Covers fun e => options.selects selector e.plain = true :=
          fun e parts hparts => by rw [hrange e parts hparts]
        obtain ⟨pages, hpages, hthrough⟩ :=
          hholds.pagesThrough hkeysEncoded hkeys hplan hskip hlimit hcovers hrequests
        exact ⟨selector, pages, hselectors, hpages, hthrough⟩
  · -- The start lies behind the end, so that one page without rows is all.
    cases hvain
    subst hnone
    obtain ⟨answer, hanswer, hrows, hwhole⟩ := Snapshot.exists_query_of_entries options
      hholds.reflects.wellFormed (fun e he => hholds.decodes hkeysEncoded he) hplan rfl
    refine ⟨selector, _, hselectors, readPages_of_none hanswer hwhole requests, ?_⟩
    have hlisted : (PageRead.mk (writes.foldl write (empty view.name view.reducer)).current
        options answer).listed view.reducer = [] := by
      simp only [PageRead.listed, hplan]
      rfl
    refine .singleton (by rw [hlisted]; exact hrows) (by rw [hlisted]; exact .nil) ?_ hwhole
    intro e
    rw [hlisted, hholds.entries_eq]
    refine ⟨fun he => absurd he List.not_mem_nil, fun ⟨he, hkind⟩ => ?_⟩
    obtain ⟨parts, hparts⟩ := hholds.decodes hkeysEncoded he
    rw [hselects e parts hparts] at hkind
    cases hkind

/-- One row at a time up to the key `true`. Behind the first row a document that was shown is taken
out and another one put in at the same key. -/
theorem pages_through_selected_between_writes :
    let view : View := { name := "tags", map := fun _ => .emitted [] }
    let options : QueryOptions := { endKey := some (.bool true), limit := some 1 }
    let requests : List PageRequest := [
      { writes := [.remove "a", .upsert "c" [(⟨[0x10]⟩, .null)]], limit := some 1 },
      { expired := fun _ => true }]
    ∃ selector pages, options.selectors = .ok [selector] ∧
      (tagged.foldl write (empty view.name view.reducer)).readPages view.reducer options requests
        = .ok pages ∧
      PagesThrough view.reducer options.descending
        (fun e => options.selects selector e.plain = true) pages := by
  refine pages_through_selected _ _ distinct_tagged encoded_tagged _ rfl rfl rfl rfl (by simp)
    ⟨[⟨.start, .afterKey ⟨[0x21]⟩⟩], .entries⟩ rfl _ ?_
  have hdistinct : ∀ w ∈ [Write.remove "a", .upsert "c" [(⟨[0x10]⟩, .null)]], w.Distinct := by
    simp [Write.Distinct]
  have hencoded : ∀ w ∈ [Write.remove "a", .upsert "c" [(⟨[0x10]⟩, .null)]], w.Encoded := by
    have hnull : Key.encode [.null] = .ok ⟨[0x10]⟩ := rfl
    simp only [List.forall_mem_cons, Write.Encoded, DocUpdate.Encoded, List.not_mem_nil,
      false_implies, implies_true, and_true, true_and]
    exact ⟨_, hnull⟩
  simp only [List.forall_mem_cons, List.not_mem_nil, false_implies, implies_true, and_true]
  exact ⟨⟨hdistinct, hencoded, by simp⟩, ⟨by simp, by simp, by simp⟩⟩

end IndexStore

end ViewIndex
