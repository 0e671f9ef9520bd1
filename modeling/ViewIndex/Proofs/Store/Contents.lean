import Mathlib.Algebra.GroupWithZero.Nat
import ViewIndex.Proofs.Tree.Build
import ViewIndex.Proofs.Tree.Edit
import ViewIndex.Store.Basic

/-!
# Contents of a store

What a store holds is told by the entries that every document has, in the order in which they were
submitted. A tree and document lists reflect these contents if both have exactly the entries that
follow from them. Replacing one document and replacing everything keep it that way.
-/

namespace ViewIndex

namespace DocUpdate

/-- The identities of the entries. -/
def ids (update : DocUpdate) : List EntryId := update.indexEntries.map Entry.id

theorem mem_indexEntries (update : DocUpdate) (e : Entry) :
    e ∈ update.indexEntries ↔
      e.id.docId = update.docId ∧ update.entries[e.id.ordinal]? = some (e.id.key, e.value) := by
  unfold indexEntries
  rw [List.mem_mapIdx]
  constructor
  · rintro ⟨i, hi, rfl⟩
    exact ⟨rfl, List.getElem?_eq_getElem hi⟩
  · rintro ⟨hdoc, hget⟩
    obtain ⟨hi, hentry⟩ := List.getElem?_eq_some_iff.mp hget
    refine ⟨e.id.ordinal, hi, ?_⟩
    rw [hentry, ← hdoc]

@[simp]
theorem length_ids (update : DocUpdate) : update.ids.length = update.entries.length := by
  simp [ids, indexEntries]

theorem map_key_ids (update : DocUpdate) :
    update.ids.map EntryId.key = update.entries.map Prod.fst := by
  apply List.ext_getElem
  · simp
  · intro i _ _
    simp [ids, indexEntries]

theorem docId_of_mem_ids {update : DocUpdate} {id : EntryId} (h : id ∈ update.ids) :
    id.docId = update.docId := by
  obtain ⟨e, he, rfl⟩ := List.mem_map.mp h
  exact ((mem_indexEntries update e).mp he).1

theorem nodup_ids (update : DocUpdate) : update.ids.Nodup := by
  have hordinals : update.ids.map EntryId.ordinal = List.range update.entries.length := by
    apply List.ext_getElem
    · simp
    · intro i _ _
      simp [ids, indexEntries]
  apply List.Nodup.of_map EntryId.ordinal
  rw [hordinals]
  exact List.nodup_range

theorem indexEntries_eq_nil_iff (update : DocUpdate) :
    update.indexEntries = [] ↔ update.entries = [] := by
  simp [indexEntries]

end DocUpdate

/-- For each document the entries that it has in a view. -/
abbrev Contents := String → List (EncodedKey × Json)

namespace Contents

/-- No document has entries. -/
def empty : Contents := fun _ => []

/-- The contents after the entries of one document are replaced. -/
def set (contents : Contents) (update : DocUpdate) : Contents := fun docId =>
  if docId = update.docId then update.entries else contents docId

/-- The contents after several replacements, one after the other. -/
def setAll (contents : Contents) (updates : List DocUpdate) : Contents :=
  updates.foldl set contents

/-- How many entries make way while documents are replaced one after the other. -/
def replaced (contents : Contents) : List DocUpdate → Nat
  | [] => 0
  | update :: rest => (contents update.docId).length + (contents.set update).replaced rest

/-- The identities of the entries of a document. -/
def ids (contents : Contents) (docId : String) : List EntryId :=
  DocUpdate.ids ⟨docId, contents docId⟩

theorem docId_of_mem_ids {contents : Contents} {docId : String} {id : EntryId}
    (h : id ∈ contents.ids docId) : id.docId = docId :=
  DocUpdate.docId_of_mem_ids h

/-- Whether an entry is one of those that a document has. -/
def Has (contents : Contents) (e : Entry) : Prop :=
  (contents e.id.docId)[e.id.ordinal]? = some (e.id.key, e.value)

theorem set_self (contents : Contents) (update : DocUpdate) :
    contents.set update update.docId = update.entries := if_pos rfl

theorem set_of_ne {contents : Contents} {update : DocUpdate} {docId : String}
    (h : docId ≠ update.docId) : contents.set update docId = contents docId := if_neg h

theorem setAll_of_not_mem {contents : Contents} {updates : List DocUpdate} {docId : String}
    (h : docId ∉ updates.map DocUpdate.docId) : contents.setAll updates docId = contents docId := by
  induction updates generalizing contents with
  | nil => rfl
  | cons update rest ih =>
      rw [List.map_cons, List.mem_cons, not_or] at h
      exact (ih h.2).trans (set_of_ne h.1)

theorem setAll_of_mem {contents : Contents} {updates : List DocUpdate} {update : DocUpdate}
    (hdistinct : (updates.map DocUpdate.docId).Nodup) (h : update ∈ updates) :
    contents.setAll updates update.docId = update.entries := by
  induction updates generalizing contents with
  | nil => cases h
  | cons first rest ih =>
      rw [List.map_cons, List.nodup_cons] at hdistinct
      rcases List.mem_cons.mp h with rfl | h
      · exact (setAll_of_not_mem hdistinct.1).trans (set_self contents update)
      · exact ih hdistinct.2 h

/-- Replacements of different documents may change places. -/
theorem setAll_perm (contents : Contents) {a b : List DocUpdate} (h : a.Perm b)
    (hdistinct : (a.map DocUpdate.docId).Nodup) : contents.setAll a = contents.setAll b := by
  have hdistinctB : (b.map DocUpdate.docId).Nodup := (h.map DocUpdate.docId).nodup hdistinct
  funext docId
  by_cases hdoc : docId ∈ a.map DocUpdate.docId
  · obtain ⟨update, hupdate, rfl⟩ := List.mem_map.mp hdoc
    rw [setAll_of_mem hdistinct hupdate, setAll_of_mem hdistinctB (h.mem_iff.mp hupdate)]
  · rw [setAll_of_not_mem hdoc,
      setAll_of_not_mem fun hb => hdoc ((h.map DocUpdate.docId).mem_iff.mpr hb)]

/-- Of several replacements of one document, the last one counts. -/
theorem setAll_eq_getLast? (contents : Contents) (updates : List DocUpdate) (docId : String) :
    contents.setAll updates docId
      = (((updates.filter fun update => update.docId = docId).getLast?).map
          DocUpdate.entries).getD (contents docId) := by
  induction updates generalizing contents with
  | nil => rfl
  | cons update rest ih =>
      refine (ih (contents.set update)).trans ?_
      by_cases hdoc : update.docId = docId
      · subst hdoc
        rw [List.filter_cons_of_pos (by simp), List.getLast?_cons, set_self]
        cases (rest.filter fun later => later.docId = update.docId).getLast? <;> rfl
      · rw [List.filter_cons_of_neg (by simpa using hdoc), set_of_ne (Ne.symm hdoc)]

theorem has_iff (contents : Contents) (e : Entry) :
    contents.Has e ↔ e ∈ DocUpdate.indexEntries ⟨e.id.docId, contents e.id.docId⟩ := by
  rw [DocUpdate.mem_indexEntries]
  exact (and_iff_right rfl).symm

theorem has_set_iff (contents : Contents) (update : DocUpdate) (e : Entry) :
    (contents.set update).Has e ↔
      e ∈ update.indexEntries ∨ contents.Has e ∧ e.id.docId ≠ update.docId := by
  by_cases hdoc : e.id.docId = update.docId
  · simp [Has, set, hdoc, DocUpdate.mem_indexEntries]
  · simp [Has, set, hdoc, DocUpdate.mem_indexEntries]

end Contents

/-! ## Trees and document lists -/

/-- The document lists have an item for each document with entries, which are those of the
contents. -/
def Lists (byDoc : Std.ExtTreeMap String (List EntryId)) (contents : Contents) : Prop :=
  ∀ docId, byDoc[docId]? = if contents docId = [] then none else some (contents.ids docId)

/-- A well-formed tree and document lists that both have exactly the entries of the contents. -/
structure Reflects (r : Reducer) (tree : Tree) (byDoc : Std.ExtTreeMap String (List EntryId))
    (contents : Contents) : Prop where
  wellFormed : tree.WellFormed r
  mem_tree : ∀ e, e ∈ tree.toList ↔ contents.Has e
  lists : Lists byDoc contents

theorem lists_empty : Lists ∅ Contents.empty := by
  intro docId
  simp [Contents.empty]

theorem reflects_empty (r : Reducer) : Reflects r .nil ∅ Contents.empty where
  wellFormed := ⟨ascending_nil, Tree.sound_nil⟩
  mem_tree e := by simp [Tree.toList, Contents.Has, Contents.empty]
  lists := lists_empty

section Lists

variable {byDoc : Std.ExtTreeMap String (List EntryId)} {contents : Contents}

theorem Lists.getD_eq (h : Lists byDoc contents) (docId : String) :
    byDoc.getD docId [] = contents.ids docId := by
  rw [Std.ExtTreeMap.getD_eq_getD_getElem?, h docId]
  split
  next hnil => simp [Contents.ids, DocUpdate.ids, DocUpdate.indexEntries, hnil]
  next => rfl

theorem Lists.mem_iff (h : Lists byDoc contents) (docId : String) :
    docId ∈ byDoc ↔ contents docId ≠ [] := by
  rw [Std.ExtTreeMap.mem_iff_isSome_getElem?, h docId]
  split <;> simp_all

theorem Lists.insert (h : Lists byDoc contents) {update : DocUpdate}
    (hsome : update.entries ≠ []) :
    Lists (byDoc.insert update.docId update.ids) (contents.set update) := by
  intro docId
  rw [Std.ExtTreeMap.getElem?_insert]
  by_cases hdoc : update.docId = docId
  · subst hdoc
    simp [Contents.ids, Contents.set_self, hsome]
  · rw [if_neg (by simpa using hdoc), h docId]
    simp [Contents.ids, Contents.set_of_ne (Ne.symm hdoc)]

theorem Lists.erase (h : Lists byDoc contents) {update : DocUpdate}
    (hnone : update.entries = []) : Lists (byDoc.erase update.docId) (contents.set update) := by
  intro docId
  rw [Std.ExtTreeMap.getElem?_erase]
  by_cases hdoc : update.docId = docId
  · subst hdoc
    simp [Contents.set_self, hnone]
  · rw [if_neg (by simpa using hdoc), h docId]
    simp [Contents.ids, Contents.set_of_ne (Ne.symm hdoc)]

end Lists

namespace IndexStore

variable {r : Reducer} {contents : Contents}

/-- Replacing the entries of one document. -/
theorem BatchState.reflects_apply {state : BatchState}
    (h : Reflects r state.tree state.byDoc contents) (update : DocUpdate) :
    Reflects r (state.apply r update).tree (state.apply r update).byDoc (contents.set update) where
  wellFormed := h.wellFormed.applyDelta _ _
  mem_tree e := by
    change e ∈ (state.tree.applyDelta r (state.byDoc.getD update.docId [])
      update.indexEntries).toList ↔ _
    rw [Tree.mem_applyDelta h.wellFormed _ update.nodup_ids, h.lists.getD_eq, h.mem_tree,
      Contents.has_set_iff]
    apply or_congr_right
    constructor
    -- An old entry is kept if it belongs to another document.
    · rintro ⟨⟨hhas, hold⟩, -⟩
      refine ⟨hhas, fun hdoc => hold ?_⟩
      rw [← hdoc]
      exact List.mem_map_of_mem ((Contents.has_iff contents e).mp hhas)
    · rintro ⟨hhas, hdoc⟩
      exact ⟨⟨hhas, fun hold => hdoc (Contents.docId_of_mem_ids hold)⟩,
        fun hnew => hdoc (DocUpdate.docId_of_mem_ids hnew)⟩
  lists := by
    unfold BatchState.apply
    by_cases hnone : update.entries = []
    · have hentries := update.indexEntries_eq_nil_iff.mpr hnone
      simpa [hentries] using h.lists.erase hnone
    · have hentries := update.indexEntries_eq_nil_iff.not.mpr hnone
      simpa [hentries, DocUpdate.ids] using h.lists.insert hnone

/-- Replacing the entries of several documents, one after the other, also counts them. -/
theorem reflects_foldl_apply (state : BatchState)
    (h : Reflects r state.tree state.byDoc contents) (updates : List DocUpdate) :
    Reflects r (updates.foldl (BatchState.apply r) state).tree
        (updates.foldl (BatchState.apply r) state).byDoc (contents.setAll updates) ∧
      (updates.foldl (BatchState.apply r) state).removed
        = state.removed + contents.replaced updates ∧
      (updates.foldl (BatchState.apply r) state).inserted
        = state.inserted + (updates.map fun update => update.entries.length).sum := by
  induction updates generalizing state contents with
  | nil => exact ⟨h, rfl, rfl⟩
  | cons update rest ih =>
      obtain ⟨hreflects, hremoved, hinserted⟩ := ih _ (BatchState.reflects_apply h update)
      refine ⟨hreflects, ?_, ?_⟩
      · rw [List.foldl_cons, hremoved, Contents.replaced, ← Nat.add_assoc]
        simp [BatchState.apply, h.lists.getD_eq, Contents.ids]
      · rw [List.foldl_cons, hinserted, List.map_cons, List.sum_cons, ← Nat.add_assoc]
        simp [BatchState.apply, DocUpdate.indexEntries]

theorem lists_foldl {byDoc : Std.ExtTreeMap String (List EntryId)} {docs : List DocUpdate}
    (h : Lists byDoc contents) (hdistinct : (docs.map DocUpdate.docId).Nodup)
    (hfresh : ∀ doc ∈ docs, contents doc.docId = []) :
    Lists (docs.foldl (fun byDoc doc =>
        if doc.entries.isEmpty then byDoc
        else byDoc.insert doc.docId (doc.indexEntries.map Entry.id)) byDoc)
      (contents.setAll docs) := by
  induction docs generalizing byDoc contents with
  | nil => exact h
  | cons doc rest ih =>
      rw [List.map_cons, List.nodup_cons] at hdistinct
      apply ih _ hdistinct.2
      · intro other hother
        have hne : other.docId ≠ doc.docId := by
          intro heq
          exact hdistinct.1 (heq ▸ List.mem_map_of_mem hother)
        rw [Contents.set_of_ne hne]
        exact hfresh other (List.mem_cons_of_mem _ hother)
      · by_cases hnone : doc.entries = []
        · -- A document without entries has no list before, and none after.
          have hsame : contents.set doc = contents := by
            funext docId
            by_cases hdoc : docId = doc.docId
            · rw [hdoc, Contents.set_self, hfresh doc List.mem_cons_self, hnone]
            · exact Contents.set_of_ne hdoc
          simpa [hnone, hsame] using h
        · simpa [hnone, DocUpdate.ids] using h.insert hnone

theorem nodup_flatMap_ids {docs : List DocUpdate} (h : (docs.map DocUpdate.docId).Nodup) :
    ((docs.flatMap DocUpdate.indexEntries).map Entry.id).Nodup := by
  rw [List.map_flatMap]
  induction docs with
  | nil => exact List.nodup_nil
  | cons doc rest ih =>
      rw [List.map_cons, List.nodup_cons] at h
      rw [List.flatMap_cons]
      refine doc.nodup_ids.append (ih h.2) fun id hid hother => ?_
      obtain ⟨other, hmem, hids⟩ := List.mem_flatMap.mp hother
      apply h.1
      rw [← DocUpdate.docId_of_mem_ids hid, DocUpdate.docId_of_mem_ids hids]
      exact List.mem_map_of_mem hmem

/-- Building everything anew from distinct documents. -/
theorem reflects_ofEntries {docs : List DocUpdate} (h : (docs.map DocUpdate.docId).Nodup) :
    Reflects r (Tree.ofEntries r (docs.flatMap DocUpdate.indexEntries)) (listDocs docs)
      (Contents.empty.setAll docs) where
  wellFormed := Tree.wellFormed_ofEntries _
  mem_tree e := by
    rw [Tree.mem_ofEntries (nodup_flatMap_ids h), List.mem_flatMap, Contents.has_iff]
    constructor
    · rintro ⟨doc, hdoc, he⟩
      rw [((DocUpdate.mem_indexEntries doc e).mp he).1, Contents.setAll_of_mem h hdoc]
      exact he
    · intro he
      -- Only documents of the list have entries.
      by_cases hdoc : e.id.docId ∈ docs.map DocUpdate.docId
      · obtain ⟨doc, hmem, heq⟩ := List.mem_map.mp hdoc
        rw [← heq, Contents.setAll_of_mem h hmem] at he
        exact ⟨doc, hmem, he⟩
      · rw [Contents.setAll_of_not_mem hdoc] at he
        simp [Contents.empty, DocUpdate.indexEntries] at he
  lists := lists_foldl lists_empty h fun _ _ => rfl

/-- The store holds exactly these entries. -/
structure Holds (store : IndexStore) (contents : Contents) : Prop where
  reflects : Reflects store.reducer store.current.tree store.byDoc contents
  docCount : store.current.docCount = store.byDoc.size

theorem holds_empty (name : String) (reducer : Option Reducer) :
    (empty name reducer).Holds Contents.empty where
  reflects := reflects_empty _
  docCount := Std.ExtTreeMap.size_empty.symm

section Holds

variable {store : IndexStore}

theorem Holds.applyBatch (h : store.Holds contents) (updates : List DocUpdate)
    (position : Option Position) :
    (store.applyBatch updates position).1.Holds (contents.setAll updates) where
  reflects := (reflects_foldl_apply ⟨_, _, 0, 0⟩ h.reflects updates).1
  docCount := rfl

theorem Holds.applyBatch_snd (h : store.Holds contents) (updates : List DocUpdate)
    (position : Option Position) : (store.applyBatch updates position).2
      = (contents.replaced updates, (updates.map fun update => update.entries.length).sum) := by
  obtain ⟨-, hremoved, hinserted⟩ := reflects_foldl_apply ⟨_, _, 0, 0⟩ h.reflects updates
  rw [Nat.zero_add] at hremoved hinserted
  exact Prod.ext hremoved hinserted

theorem holds_replaceAll (store : IndexStore) {docs : List DocUpdate}
    (h : (docs.map DocUpdate.docId).Nodup) (position : Position) :
    (store.replaceAll docs position).Holds (Contents.empty.setAll docs) where
  reflects := reflects_ofEntries h
  docCount := rfl

end Holds

end IndexStore

end ViewIndex
