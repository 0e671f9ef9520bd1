import ViewIndex.Proofs.Lists
import ViewIndex.Proofs.Store.Refinement
import ViewIndex.Storage.Checkpoint

/-!
# The documents of a snapshot

A snapshot is stored document by document: its entries are told apart by their documents and put in
the order of their ordinals, which gives back the entries that every document was submitted with.
-/

namespace ViewIndex

/-- For each document the entries that it has in a snapshot, in the order of their ordinals. -/
def Snapshot.contents (snapshot : Snapshot) : Contents := fun docId =>
  ((snapshot.entries.filter fun e => e.id.docId = docId).mergeSort
    fun a b => a.id.ordinal ≤ b.id.ordinal).map fun e => (e.id.key, e.value)

namespace Storage

/-- Documents that are listed once each, and only if they have entries, have these contents. -/
structure Lists (docs : List DocUpdate) (contents : Contents) : Prop where
  nodup : (docs.map DocUpdate.docId).Nodup
  mem_iff : ∀ doc, doc ∈ docs ↔ doc.entries ≠ [] ∧ doc.entries = contents doc.docId

theorem Lists.setAll_eq {docs : List DocUpdate} {contents : Contents} (h : Lists docs contents) :
    Contents.empty.setAll docs = contents := by
  funext docId
  by_cases hdoc : docId ∈ docs.map DocUpdate.docId
  · obtain ⟨doc, hmem, rfl⟩ := List.mem_map.mp hdoc
    rw [Contents.setAll_of_mem h.nodup hmem]
    exact ((h.mem_iff doc).mp hmem).2
  · rw [Contents.setAll_of_not_mem hdoc]
    by_contra hne
    exact hdoc (List.mem_map_of_mem (f := DocUpdate.docId)
      ((h.mem_iff ⟨docId, contents docId⟩).mpr ⟨Ne.symm hne, rfl⟩))

namespace Checkpoint

theorem getD_foldl_collect (entries : List Entry) (docs : Std.ExtTreeMap String (List Entry))
    (docId : String) : (entries.foldl collect docs).getD docId []
      = (entries.filter fun e => e.id.docId = docId).reverse ++ docs.getD docId [] := by
  induction entries generalizing docs with
  | nil => rfl
  | cons e rest ih =>
      rw [List.foldl_cons, ih, collect, Std.ExtTreeMap.getD_insert]
      by_cases hdoc : e.id.docId = docId
      · subst hdoc
        simp
      · simp [hdoc]

theorem mem_foldl_collect (entries : List Entry) (docs : Std.ExtTreeMap String (List Entry))
    (docId : String) :
    docId ∈ entries.foldl collect docs ↔ (∃ e ∈ entries, e.id.docId = docId) ∨ docId ∈ docs := by
  induction entries generalizing docs with
  | nil => simp
  | cons e rest ih =>
      rw [List.foldl_cons, ih, collect, Std.ExtTreeMap.mem_insert]
      simp [or_assoc, or_left_comm]

section

variable {store : IndexStore} {contents : Contents}

/-- The entries of one document, put in the order of their ordinals. -/
theorem sorted_eq_indexEntries (h : store.Holds contents) (docId : String) :
    ((store.current.entries.filter fun e => e.id.docId = docId).mergeSort
        fun a b => a.id.ordinal ≤ b.id.ordinal)
      = DocUpdate.indexEntries ⟨docId, contents docId⟩ := by
  apply mergeSort_eq_of_ascending
  · rw [List.pairwise_iff_getElem]
    intro i j hi hj hlt
    simpa [DocUpdate.indexEntries] using hlt
  · rw [h.entries_eq]
    exact (h.reflects.wellFormed.ascending.filter _).nodup
  · intro e
    rw [List.mem_filter, h.mem_entries, Contents.has_iff, decide_eq_true_eq]
    constructor
    · rintro ⟨hhas, rfl⟩
      exact hhas
    · intro hhas
      have hdoc := ((DocUpdate.mem_indexEntries _ e).mp hhas).1
      dsimp only at hdoc
      rw [hdoc]
      exact ⟨hhas, rfl⟩

theorem map_indexEntries {α : Type} (update : DocUpdate) (f : EncodedKey × Json → α) :
    update.indexEntries.map (fun e => f (e.id.key, e.value)) = update.entries.map f := by
  apply List.ext_getElem
  · simp [DocUpdate.indexEntries]
  · intro i _ _
    simp [DocUpdate.indexEntries]

/-- What a store holds is what its snapshot shows. -/
theorem contents_eq (h : store.Holds contents) : store.current.contents = contents := by
  funext docId
  rw [Snapshot.contents, sorted_eq_indexEntries h]
  exact (map_indexEntries ⟨docId, contents docId⟩ id).trans (List.map_id _)

theorem mem_collected_iff (h : store.Holds contents) (docId : String) :
    docId ∈ store.current.entries.foldl collect ∅ ↔ contents docId ≠ [] := by
  rw [mem_foldl_collect]
  simp only [Std.ExtTreeMap.not_mem_empty, or_false, h.mem_entries, Contents.has_iff]
  constructor
  · rintro ⟨e, he, rfl⟩ hnil
    rw [(DocUpdate.indexEntries_eq_nil_iff _).mpr hnil] at he
    cases he
  · intro hne
    obtain ⟨e, he⟩ := List.exists_mem_of_ne_nil _
      ((DocUpdate.indexEntries_eq_nil_iff ⟨docId, contents docId⟩).not.mpr hne)
    have hdoc := ((DocUpdate.mem_indexEntries _ e).mp he).1
    dsimp only at hdoc
    exact ⟨e, by rwa [hdoc], hdoc⟩

/-- The image of a store lists what it holds. -/
theorem exists_storedDocs_eq (h : store.Holds contents) : ∃ docs : List DocUpdate,
    storedDocs store.current = docs.map StoredDoc.ofUpdate ∧ Lists docs contents := by
  let collected := store.current.entries.foldl collect ∅
  have hids : collected.toList.map Prod.fst = collected.keys :=
    Std.ExtTreeMap.map_fst_toList_eq_keys
  refine ⟨collected.keys.map fun docId => ⟨docId, contents docId⟩, ?_, ?_, ?_⟩
  · rw [← hids, List.map_map, List.map_map, storedDocs]
    apply List.map_congr_left
    rintro ⟨docId, entries⟩ hitem
    have hget : collected.getD docId [] = entries := by
      rw [Std.ExtTreeMap.getD_eq_getD_getElem?,
        Std.ExtTreeMap.mem_toList_iff_getElem?_eq_some.mp hitem, Option.getD_some]
    rw [getD_foldl_collect, Std.ExtTreeMap.getD_empty, List.append_nil] at hget
    -- The entries were collected in front of each other.
    have hentries := congrArg List.reverse hget
    rw [List.reverse_reverse] at hentries
    simp only [← hentries, sorted_eq_indexEntries h, StoredDoc.ofUpdate, Function.comp_apply,
      StoredDoc.mk.injEq, true_and]
    exact map_indexEntries ⟨docId, contents docId⟩ fun entry => (entry.1, entry.2.compact)
  · rw [List.map_map]
    simpa [Function.comp_def] using Std.ExtTreeMap.nodup_keys
  · rintro ⟨docId, entries⟩
    simp only [List.mem_map, Std.ExtTreeMap.mem_keys, DocUpdate.mk.injEq]
    constructor
    · rintro ⟨listed, hmem, rfl, rfl⟩
      exact ⟨(mem_collected_iff h listed).mp hmem, rfl⟩
    · rintro ⟨hne, rfl⟩
      exact ⟨docId, (mem_collected_iff h docId).mpr hne, rfl, rfl⟩

end

end Checkpoint

end Storage

end ViewIndex
