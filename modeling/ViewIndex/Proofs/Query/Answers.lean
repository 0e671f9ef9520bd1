import ViewIndex.Proofs.Query.Pages
import ViewIndex.Proofs.Query.Selection
import ViewIndex.Proofs.Storage.Rereading
import ViewIndex.Proofs.Store.Refinement
import ViewIndex.View.Basic

/-!
# Answers to queries for entries

A store whose keys were encoded lists its entries in the order of keys. A query for entries lists
those that its selectors select, one selector after the other, in the direction of travel, and of
these the page that is asked for.
-/

namespace ViewIndex

/-! ## Stores of encoded keys -/

/-- Every key of the entries is the encoded form of one. -/
def DocUpdate.Encoded (update : DocUpdate) : Prop :=
  ∀ entry ∈ update.entries, ∃ parts : Key, parts.encode = .ok entry.1

/-- Every key that is submitted is the encoded form of one. -/
def IndexStore.Write.Encoded : IndexStore.Write → Prop
  | .upsert docId entries => DocUpdate.Encoded ⟨docId, entries⟩
  | .remove _ => True
  | .applyBatch updates _ => ∀ update ∈ updates, update.Encoded
  | .replaceAll docs _ => ∀ doc ∈ docs, doc.Encoded

namespace Contents

def Encoded (contents : Contents) : Prop :=
  ∀ docId, ∀ entry ∈ contents docId, ∃ parts : Key, parts.encode = .ok entry.1

theorem encoded_empty : empty.Encoded := by
  intro docId entry hentry
  cases hentry

theorem Encoded.write {contents : Contents} (h : contents.Encoded) {w : IndexStore.Write}
    (hw : w.Encoded) : (contents.write w).Encoded := by
  cases w with
  | upsert docId entries =>
      have hupdates : ∀ update ∈ [DocUpdate.mk docId entries], ∀ entry ∈ update.entries,
          ∃ parts : Key, parts.encode = .ok entry.1 := by
        intro update hupdate
        rw [List.mem_singleton.mp hupdate]
        exact hw
      exact forall_mem_setAll h hupdates
  | remove docId =>
      have hupdates : ∀ update ∈ [DocUpdate.mk docId []], ∀ entry ∈ update.entries,
          ∃ parts : Key, parts.encode = .ok entry.1 := by
        intro update hupdate entry hentry
        rw [List.mem_singleton.mp hupdate] at hentry
        cases hentry
      exact forall_mem_setAll h hupdates
  | applyBatch updates position => exact forall_mem_setAll h hw
  | replaceAll docs position => exact forall_mem_setAll encoded_empty hw

theorem Encoded.foldl_write {contents : Contents} (h : contents.Encoded)
    {writes : List IndexStore.Write} (hwrites : ∀ w ∈ writes, w.Encoded) :
    (writes.foldl Contents.write contents).Encoded := by
  induction writes generalizing contents with
  | nil => exact h
  | cons w rest ih =>
      obtain ⟨hw, hrest⟩ := List.forall_mem_cons.mp hwrites
      exact ih (h.write hw) hrest

theorem Encoded.decodes {contents : Contents} (h : contents.Encoded) {e : Entry}
    (he : contents.Has e) : ∃ parts, e.id.key.Decodes parts := by
  obtain ⟨parts, hparts⟩ := h _ _ (List.mem_of_getElem? he)
  exact ⟨_, Key.decodes_of_encode hparts⟩

/-- The entries of all documents in order, with the components of their keys. -/
structure ListedAs (contents : Contents) (entries : List PlainEntry) : Prop where
  ascending : entries.Pairwise fun a b => a.order b = .lt
  mem_iff : ∀ e, e ∈ entries ↔ ∃ key, (contents e.docId)[e.ordinal]? = some (key, e.value) ∧
    key.decode = .ok e.key

end Contents

namespace IndexStore

variable {store : IndexStore} {contents : Contents}

theorem order_plain {a b : Entry} {first second : Key} (ha : a.id.key.Decodes first)
    (hb : b.id.key.Decodes second) : a.plain.order b.plain = compare a.id b.id := by
  rw [PlainEntry.order, ha.plain_key, hb.plain_key,
    ← Key.compare_of_encode ha.encode_eq hb.encode_eq]
  rfl

/-- Whatever a tree holds decodes. -/
theorem Holds.decodes (h : store.Holds contents) (hencoded : contents.Encoded) {e : Entry}
    (he : e ∈ store.current.tree.toList) : ∃ parts, e.id.key.Decodes parts :=
  hencoded.decodes ((h.reflects.mem_tree e).mp he)

theorem Holds.listedAs (h : store.Holds contents) (hencoded : contents.Encoded) :
    contents.ListedAs (store.current.tree.toList.map Entry.plain) where
  ascending := by
    rw [List.pairwise_map]
    refine List.Pairwise.imp_of_mem (fun {a b} ha hb hlt => ?_) h.reflects.wellFormed.ascending
    obtain ⟨first, hfirst⟩ := h.decodes hencoded ha
    obtain ⟨second, hsecond⟩ := h.decodes hencoded hb
    rw [order_plain hfirst hsecond]
    exact hlt
  mem_iff e := by
    rw [List.mem_map]
    constructor
    · rintro ⟨stored, hstored, rfl⟩
      obtain ⟨parts, hparts⟩ := h.decodes hencoded hstored
      refine ⟨stored.id.key, (h.reflects.mem_tree stored).mp hstored, ?_⟩
      rw [hparts.plain_key]
      exact hparts.decode_eq
    · rintro ⟨key, hget, hdecode⟩
      refine ⟨⟨⟨key, e.docId, e.ordinal⟩, e.value⟩, (h.reflects.mem_tree _).mpr hget, ?_⟩
      simp [Entry.plain, hdecode, Except.toOption]

end IndexStore

/-! ## The entries of an answer -/

/-- The row of an entry. -/
def PlainEntry.row (e : PlainEntry) : ViewRow := ⟨e.key.toJson, e.value, some e.docId⟩

namespace QueryOptions

/-- The entries in the direction of travel. -/
def travelled (options : QueryOptions) (entries : List PlainEntry) : List PlainEntry :=
  if options.descending then entries.reverse else entries

/-- The selected entries, one selector after the other. -/
def selected (options : QueryOptions) (selectors : List Selector) (entries : List PlainEntry) :
    List PlainEntry :=
  selectors.flatMap fun selector => (options.travelled entries).filter (options.selects selector)

/-- Of these the page that is asked for. -/
def page (options : QueryOptions) (selectors : List Selector) (entries : List PlainEntry) :
    List PlainEntry :=
  limited options.limit ((options.selected selectors entries).drop options.skip)

end QueryOptions

namespace Snapshot

variable {snapshot : Snapshot} {options : QueryOptions}

theorem shownKey_eq {key : EncodedKey} {parts : Key} (h : key.Decodes parts) :
    shownKey key = .ok parts.toJson := by
  rw [shownKey, h.decode_eq]
  rfl

theorem entryRow_eq {e : Entry} {parts : Key} (h : e.id.key.Decodes parts) :
    entryRow e = .ok e.plain.row := by
  rw [entryRow, shownKey_eq h, PlainEntry.row, h.plain_key]
  rfl

theorem mapM_entryRow {entries : List Entry}
    (h : ∀ e ∈ entries, ∃ parts, e.id.key.Decodes parts) :
    entries.mapM entryRow = .ok (entries.map fun e => e.plain.row) := by
  apply mapM_eq_ok
  intro e he
  obtain ⟨parts, hparts⟩ := h e he
  exact entryRow_eq hparts

theorem map_plain_listing (options : QueryOptions) (tree : Tree) :
    (tree.listing options.descending).map Entry.plain
      = options.travelled (tree.toList.map Entry.plain) := by
  rw [Tree.listing, QueryOptions.travelled]
  split
  next => exact List.map_reverse
  next => rfl

section Met

variable (hdecodes : ∀ e ∈ snapshot.tree.toList, ∃ parts, e.id.key.Decodes parts)

include hdecodes

/-- What is met of a range is what its selector selects. -/
theorem map_plain_met {range : KeyRange} {selector : Selector}
    (h : options.Realizes range selector) :
    (snapshot.tree.met options.descending range).map Entry.plain
      = (options.travelled (snapshot.tree.toList.map Entry.plain)).filter
        (options.selects selector) := by
  rw [Tree.met, ← map_plain_listing, List.filter_map]
  congr 1
  apply List.filter_congr
  intro e he
  obtain ⟨parts, hparts⟩ := hdecodes e (Tree.mem_listing.mp he)
  exact h e parts hparts

theorem filter_selects_of_vain {selector : Selector} (h : options.Vain selector) :
    (options.travelled (snapshot.tree.toList.map Entry.plain)).filter (options.selects selector)
      = [] := by
  rw [← map_plain_listing, List.filter_map, List.map_eq_nil_iff, List.filter_eq_nil_iff]
  intro e he
  obtain ⟨parts, hparts⟩ := hdecodes e (Tree.mem_listing.mp he)
  rw [Function.comp_apply, h e parts hparts]
  decide

theorem map_plain_flatMap_met {ranges : List KeyRange} {selectors : List Selector}
    (h : options.Agree ranges selectors) :
    (ranges.flatMap (snapshot.tree.met options.descending)).map Entry.plain
      = options.selected selectors (snapshot.tree.toList.map Entry.plain) := by
  obtain ⟨hrealizes | ⟨rfl, selector, rfl, hvain⟩, -⟩ := h
  · induction hrealizes with
    | nil => rfl
    | cons hrange _ ih =>
        rw [List.flatMap_cons, List.map_append, ih, map_plain_met hdecodes hrange]
        rfl
  · rw [QueryOptions.selected, List.flatMap_singleton, filter_selects_of_vain hdecodes hvain]
    rfl

end Met

end Snapshot

/-- What is to be said of the answer to a query for entries. -/
structure ViewResult.Answers (result : ViewResult) (options : QueryOptions)
    (selectors : List Selector) (entries : List PlainEntry) : Prop where
  rows : result.rows = (options.page selectors entries).map PlainEntry.row
  totalRows : result.totalRows = some entries.length
  /-- With one selector, the offset tells how many entries come before the first row. -/
  offset : selectors.length = 1 → ∀ first rest, options.page selectors entries = first :: rest →
    ∃ before after, options.travelled entries = before ++ first :: after ∧
      result.offset = some before.length
  /-- A start after the end gives no rows. -/
  crossed : ∀ first last, selectors = [.between (some first) (some last)] →
    options.turned (first.key.collate last.key) = .gt → result.rows = []

namespace Snapshot

variable {snapshot : Snapshot} {r : Reducer} {options : QueryOptions} {ranges : List KeyRange}
  {selectors : List Selector}

/-- The rows of a query for entries are those of its page. -/
theorem map_plain_rows (h : snapshot.tree.WellFormed r)
    (hdecodes : ∀ e ∈ snapshot.tree.toList, ∃ parts, e.id.key.Decodes parts)
    (hagree : options.Agree ranges selectors) (hclock : ∀ n, options.expired n = false) :
    (snapshot.listRanges options ranges options.skip 0).rows.map Entry.plain
      = options.page selectors (snapshot.tree.toList.map Entry.plain) := by
  rw [rows_listRanges h hclock, QueryOptions.page, ← map_plain_flatMap_met hdecodes hagree,
    ← List.map_drop, limited_map]
  cases options.limit <;> rfl

theorem mem_toList_of_mem_rows (h : snapshot.tree.WellFormed r) {skip taken : Nat} {e : Entry}
    (he : e ∈ (snapshot.listRanges options ranges skip taken).rows) :
    e ∈ snapshot.tree.toList := by
  induction ranges generalizing skip taken with
  | nil => cases he
  | cons range rest ih =>
      obtain ⟨n, -, hrows, -⟩ := scan_spec h range (options.pageAfter skip taken)
      have hpage : ∀ e ∈ (snapshot.scan range (options.pageAfter skip taken)).rows,
          e ∈ snapshot.tree.toList := by
        intro e he
        rw [hrows] at he
        exact (Tree.mem_met.mp (List.mem_of_mem_drop (List.mem_of_mem_take he))).1
      rw [listRanges] at he
      split at he
      next => cases he
      next =>
        dsimp only at he
        split at he
        next => exact hpage e he
        next => exact (List.mem_append.mp he).elim (hpage e) ih

theorem offset_of_page (h : snapshot.tree.WellFormed r)
    (hdecodes : ∀ e ∈ snapshot.tree.toList, ∃ parts, e.id.key.Decodes parts)
    (hagree : options.Agree ranges selectors) (hlength : selectors.length = 1)
    {first : PlainEntry} {rest : List PlainEntry}
    (hpage : options.page selectors (snapshot.tree.toList.map Entry.plain) = first :: rest) :
    ∃ before after, options.travelled (snapshot.tree.toList.map Entry.plain)
        = before ++ first :: after ∧
      (snapshot.listRanges options ranges options.skip 0).offset = some before.length := by
  -- There is a row, so the limit is not zero and there is a range to list.
  have hopen : options.isFull 0 = false := by
    rw [← Bool.not_eq_true]
    intro hfull
    have hnil := limited_of_reached hfull
      ((options.selected selectors (snapshot.tree.toList.map Entry.plain)).drop options.skip)
    rw [QueryOptions.page] at hpage
    cases hlimit : options.limit with
    | none => rw [QueryOptions.isFull, hlimit] at hfull; cases hfull
    | some n =>
        rw [hlimit] at hnil hpage
        exact absurd (hpage.symm.trans hnil) (List.cons_ne_nil _ _)
  have hmet := map_plain_flatMap_met hdecodes hagree
  rcases hagree.realizes with hrealizes | ⟨rfl, -⟩
  · obtain ⟨selector, rfl⟩ := List.length_eq_one_iff.mp hlength
    cases hrealizes with
    | @cons range _ _ _ hrange hnil =>
        cases hnil
        rw [List.flatMap_singleton] at hmet
        rw [QueryOptions.page, ← hmet, ← List.map_drop, limited_map] at hpage
        obtain ⟨stored, others, hstored, rfl, -⟩ := List.map_eq_cons_iff.mp hpage
        obtain ⟨more, hmore⟩ := prefix_limited options.limit
          ((snapshot.tree.met options.descending range).drop options.skip)
        rw [hstored, List.cons_append] at hmore
        obtain ⟨before, after, hlisting, hbefore⟩ := exists_listing_eq h hmore.symm
        refine ⟨before.map Entry.plain, after.map Entry.plain, ?_, ?_⟩
        · rw [← map_plain_listing, hlisting, List.map_append, List.map_cons]
        · rw [offset_listRanges _ _ hopen, List.length_map, hbefore]
  · rw [QueryOptions.page, ← hmet, List.flatMap_nil, List.map_nil, List.drop_nil, limited_nil]
      at hpage
    cases hpage

end Snapshot

namespace QueryOptions

variable {options : QueryOptions} {reducer : Option Reducer} {plan : Plan}

theorem shape_eq_entries {shape : RowShape} (hreduce : options.reduce.getD reducer.isSome = false)
    (h : options.shape reducer = .ok shape) : shape = .entries := by
  simp only [QueryOptions.shape, hreduce, Bool.false_eq_true, if_false] at h
  split at h
  next => cases h
  next => cases h; rfl

end QueryOptions

theorem Snapshot.query_eq_of_plan {snapshot : Snapshot} {options : QueryOptions}
    {reducer : Option Reducer} {plan : Plan} (hplan : options.plan reducer = .ok plan)
    (hshape : plan.shape = .entries) {rows : List ViewRow}
    (hrows : (snapshot.listRanges options plan.ranges options.skip 0).rows.mapM entryRow
      = .ok rows) :
    snapshot.query reducer options = .ok {
      rows
      totalRows := some snapshot.len
      offset := some ((snapshot.listRanges options plan.ranges options.skip 0).offset.getD 0)
      continuation := continuationOf plan.ranges
        (snapshot.listRanges options plan.ranges options.skip 0).next } := by
  rw [query, hplan]
  simp only [bind, Except.bind, run, hshape, hrows]
  rfl

namespace IndexStore

variable {store : IndexStore} {contents : Contents} {options : QueryOptions}
  {reducer : Option Reducer} {plan : Plan}

/-- Every query for entries that is accepted is answered by the page of what its selectors
select. -/
theorem Holds.exists_answer (h : store.Holds contents) (hencoded : contents.Encoded)
    (hreduce : options.reduce.getD reducer.isSome = false)
    (hclock : ∀ n, options.expired n = false) (hcontinuation : options.continuation = none)
    (hplan : options.plan reducer = .ok plan) :
    ∃ selectors result, options.selectors = .ok selectors ∧
      store.current.query reducer options = .ok result ∧
      result.Answers options selectors (store.current.tree.toList.map Entry.plain) := by
  obtain ⟨hshape, selectors, hselectors, hagree⟩ :=
    QueryOptions.exists_of_plan hplan hcontinuation
  have hentries := QueryOptions.shape_eq_entries hreduce hshape
  have hwellFormed := h.reflects.wellFormed
  have hdecodes : ∀ e ∈ store.current.tree.toList, ∃ parts, e.id.key.Decodes parts :=
    fun e he => h.decodes hencoded he
  have hrows := Snapshot.map_plain_rows hwellFormed hdecodes hagree hclock
  have hmem : ∀ e ∈ (store.current.listRanges options plan.ranges options.skip 0).rows,
      ∃ parts, e.id.key.Decodes parts := by
    intro e he
    exact hdecodes e (Snapshot.mem_toList_of_mem_rows hwellFormed he)
  have hquery := Snapshot.query_eq_of_plan hplan hentries (Snapshot.mapM_entryRow hmem)
  refine ⟨selectors, _, hselectors, hquery, ?_, ?_, ?_, ?_⟩
  · rw [← hrows, List.map_map]
    rfl
  · rw [List.length_map, ← hwellFormed.sound.len_eq]
    rfl
  · intro hlength first rest hpage
    obtain ⟨before, after, htravelled, hoffset⟩ :=
      Snapshot.offset_of_page hwellFormed hdecodes hagree hlength hpage
    exact ⟨before, after, htravelled, by rw [hoffset]; rfl⟩
  · rintro first last rfl hbehind
    have hvain := QueryOptions.vain_of_turned_eq_gt
      (hagree.encodable _ (List.mem_singleton.mpr rfl)) hbehind
    have hnone : options.page [.between (some first) (some last)]
        (store.current.tree.toList.map Entry.plain) = [] := by
      rw [QueryOptions.page, QueryOptions.selected, List.flatMap_singleton,
        Snapshot.filter_selects_of_vain hdecodes hvain, List.drop_nil, limited_nil]
    rw [hnone, List.map_eq_nil_iff] at hrows
    rw [hrows]
    rfl

/-- After any writes of encoded keys, a query for entries that is accepted, with time enough and not
continuing another one, is answered by the page that is asked for of what its selectors select. -/
theorem query_answers_page (view : View) (writes : List Write)
    (hdistinct : ∀ w ∈ writes, w.Distinct) (hencoded : ∀ w ∈ writes, w.Encoded)
    (options : QueryOptions) (hreduce : options.reduce.getD view.reducer.isSome = false)
    (hclock : ∀ n, options.expired n = false) (hcontinuation : options.continuation = none)
    (plan : Plan) (hplan : options.plan view.reducer = .ok plan) :
    ∃ entries selectors result, (writes.foldl Contents.write Contents.empty).ListedAs entries ∧
      options.selectors = .ok selectors ∧
      (writes.foldl write (empty view.name view.reducer)).current.query view.reducer options
        = .ok result ∧
      result.Answers options selectors entries := by
  obtain ⟨hholds, -⟩ := (holds_empty view.name view.reducer).foldl_write hdistinct
  have hkeys := Contents.encoded_empty.foldl_write hencoded
  obtain ⟨selectors, result, hselectors, hresult, hanswers⟩ :=
    hholds.exists_answer hkeys hreduce hclock hcontinuation hplan
  exact ⟨_, selectors, result, hholds.listedAs hkeys, hselectors, hresult, hanswers⟩

/-- Two documents under one key, and one of them under another one as well. -/
def tagged : List Write := [.applyBatch
  [⟨"a", [(⟨[0x21]⟩, .nat 1), (⟨[0x10]⟩, .nat 2)]⟩, ⟨"b", [(⟨[0x10]⟩, .nat 3)]⟩] none]

theorem distinct_tagged : ∀ w ∈ tagged, w.Distinct := by
  intro w hw
  rw [List.mem_singleton.mp hw]
  trivial

theorem encoded_tagged : ∀ w ∈ tagged, w.Encoded := by
  intro w hw
  rw [List.mem_singleton.mp hw]
  intro update hupdate entry hentry
  simp only [List.mem_cons, List.not_mem_nil, or_false] at hupdate
  rcases hupdate with rfl | rfl
  · simp only [List.mem_cons, List.not_mem_nil, or_false] at hentry
    rcases hentry with rfl | rfl
    · exact ⟨[.bool true], rfl⟩
    · exact ⟨[.null], rfl⟩
  · rw [List.mem_singleton.mp hentry]
    exact ⟨[.null], rfl⟩

/-- From the key `true` downwards to the document `b` under the key `null`, one row skipped. -/
theorem query_answers_page_downwards :
    let view : View := { name := "tags", map := fun _ => .emitted [] }
    let writes : List Write := [.applyBatch
      [⟨"a", [(⟨[0x21]⟩, .nat 1), (⟨[0x10]⟩, .nat 2)]⟩, ⟨"b", [(⟨[0x10]⟩, .nat 3)]⟩] none]
    let options : QueryOptions := {
      limit := some 1, skip := 1, descending := true, startKey := some (.bool true),
      endKey := some .null, endDoc := some "b" }
    ∃ entries selectors result, (writes.foldl Contents.write Contents.empty).ListedAs entries ∧
      options.selectors = .ok selectors ∧
      (writes.foldl write (empty view.name view.reducer)).current.query view.reducer options
        = .ok result ∧
      result.Answers options selectors entries :=
  query_answers_page _ _ distinct_tagged encoded_tagged _ rfl (fun _ => rfl) rfl
    ⟨[⟨.beforeEntry ⟨⟨[0x10]⟩, "b", 0⟩, .afterKey ⟨[0x21]⟩⟩], .entries⟩ rfl

end IndexStore

end ViewIndex
