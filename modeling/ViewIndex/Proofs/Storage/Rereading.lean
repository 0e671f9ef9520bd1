import ViewIndex.Proofs.Feed.Position
import ViewIndex.Proofs.Storage.Grouping

/-!
# Reading documents back

Values are stored as text, and what is read back is what their texts denote. Applying logged batches
to the documents of an image replaces documents as it did in the index; if one text denotes nothing,
everything fails.
-/

namespace ViewIndex

/-- Whether the text of a value can be read. -/
def Json.readable (value : Json) : Bool := (Json.parse? value.compact).isSome

/-- What a value is read back as. -/
def Json.reread (value : Json) : Json := (Json.parse? value.compact).getD value

namespace DocUpdate

def readable (update : DocUpdate) : Bool := update.entries.all fun entry => entry.2.readable

def reread (update : DocUpdate) : DocUpdate :=
  ⟨update.docId, update.entries.map fun (key, value) => (key, value.reread)⟩

end DocUpdate

namespace Contents

def reread (contents : Contents) : Contents := fun docId =>
  (contents docId).map fun (key, value) => (key, value.reread)

theorem reread_set (contents : Contents) (update : DocUpdate) :
    (contents.set update).reread = contents.reread.set update.reread := by
  funext docId
  by_cases hdoc : docId = update.docId
  · simp [reread, set, DocUpdate.reread, hdoc]
  · simp [reread, set, DocUpdate.reread, hdoc]

/-- What all entries have in common stays so if the new ones have it too. -/
theorem forall_mem_setAll {P : EncodedKey × Json → Prop} {contents : Contents}
    (hcontents : ∀ docId, ∀ entry ∈ contents docId, P entry) {updates : List DocUpdate}
    (hupdates : ∀ update ∈ updates, ∀ entry ∈ update.entries, P entry) :
    ∀ docId, ∀ entry ∈ contents.setAll updates docId, P entry := by
  induction updates generalizing contents with
  | nil => exact hcontents
  | cons update rest ih =>
      obtain ⟨hupdate, hrest⟩ := List.forall_mem_cons.mp hupdates
      refine ih (fun docId => ?_) hrest
      by_cases hdoc : docId = update.docId
      · subst hdoc
        rw [set_self]
        exact hupdate
      · rw [set_of_ne hdoc]
        exact hcontents docId

/-- Contents come back as they are if every value does. -/
theorem reread_eq_self_iff {contents : Contents}
    (hreadable : ∀ docId, ∀ entry ∈ contents docId, entry.2.readable = true) :
    contents.reread = contents ↔
      ∀ docId, ∀ entry ∈ contents docId, Json.parse? entry.2.compact = some entry.2 := by
  have hvalue : ∀ docId, ∀ entry ∈ contents docId,
      ((entry.1, entry.2.reread) = entry ↔ Json.parse? entry.2.compact = some entry.2) := by
    intro docId entry hentry
    obtain ⟨read, hread⟩ := Option.isSome_iff_exists.mp (hreadable docId entry hentry)
    simp [Json.reread, hread, Prod.ext_iff]
  rw [funext_iff]
  apply forall_congr'
  intro docId
  rw [reread]
  nth_rewrite 2 [← List.map_id (contents docId)]
  rw [List.map_inj_left]
  exact forall₂_congr (hvalue docId)

end Contents

namespace Storage

theorem mapM_parse? (entries : List (EncodedKey × Json)) :
    (entries.map fun entry => (entry.1, entry.2.compact)).mapM
        (fun stored => do return (stored.1, ← Json.parse? stored.2))
      = if entries.all fun entry => entry.2.readable
          then some (entries.map fun entry => (entry.1, entry.2.reread)) else none := by
  induction entries with
  | nil => rfl
  | cons entry rest ih =>
      obtain ⟨key, value⟩ := entry
      rw [List.map_cons, List.mapM_cons, ih, List.all_cons]
      dsimp only
      cases hparse : Json.parse? value.compact with
      | none =>
          have hvalue : value.readable = false := by simp [Json.readable, hparse]
          simp [hvalue]
      | some read =>
          have hvalue : value.readable = true := by simp [Json.readable, hparse]
          have hread : value.reread = read := by simp [Json.reread, hparse]
          cases rest.all fun entry => entry.2.readable <;> simp [hvalue, hread]

theorem toUpdate?_ofUpdate (update : DocUpdate) : (StoredDoc.ofUpdate update).toUpdate? =
    if update.readable then some update.reread else none := by
  unfold StoredDoc.toUpdate? StoredDoc.ofUpdate DocUpdate.readable DocUpdate.reread
  rw [mapM_parse?]
  split <;> rfl

namespace Checkpoint

/-- The documents with entries are those of the contents. -/
def Represents (docs : DocMap) (contents : Contents) : Prop :=
  ∀ docId, docs[docId]? = if contents docId = [] then none else some ⟨docId, contents docId⟩

theorem represents_empty : Represents ∅ Contents.empty.reread := by
  intro docId
  simp [Contents.empty, Contents.reread]

section

variable {docs : DocMap} {contents : Contents}

theorem Represents.insert (h : Represents docs contents) {update : DocUpdate}
    (hsome : update.entries ≠ []) :
    Represents (docs.insert update.docId update) (contents.set update) := by
  intro docId
  rw [Std.ExtTreeMap.getElem?_insert]
  by_cases hdoc : update.docId = docId
  · subst hdoc
    simp [Contents.set_self, hsome]
  · rw [if_neg (by simpa using hdoc), h docId, Contents.set_of_ne (Ne.symm hdoc)]

theorem Represents.erase (h : Represents docs contents) {update : DocUpdate}
    (hnone : update.entries = []) :
    Represents (docs.erase update.docId) (contents.set update) := by
  intro docId
  rw [Std.ExtTreeMap.getElem?_erase]
  by_cases hdoc : update.docId = docId
  · subst hdoc
    simp [Contents.set_self, hnone]
  · rw [if_neg (by simpa using hdoc), h docId, Contents.set_of_ne (Ne.symm hdoc)]

/-- The documents that are recovered have these contents, each document once. -/
theorem Represents.lists (h : Represents docs contents) :
    Lists (docs.toList.map Prod.snd) contents := by
  have hitem : ∀ item ∈ docs.toList, contents item.1 ≠ [] ∧ item.2 = ⟨item.1, contents item.1⟩ := by
    intro item hmem
    rw [Std.ExtTreeMap.mem_toList_iff_getElem?_eq_some, h item.1] at hmem
    split at hmem
    next => cases hmem
    next hne => exact ⟨hne, (Option.some.inj hmem).symm⟩
  constructor
  · have hids : (docs.toList.map Prod.snd).map DocUpdate.docId = docs.keys := by
      rw [← Std.ExtTreeMap.map_fst_toList_eq_keys, List.map_map]
      apply List.map_congr_left
      intro item hmem
      rw [Function.comp_apply, (hitem item hmem).2]
    rw [hids]
    exact Std.ExtTreeMap.nodup_keys
  · rintro ⟨docId, entries⟩
    rw [List.mem_map]
    constructor
    · rintro ⟨item, hmem, heq⟩
      obtain ⟨hne, hdoc⟩ := hitem item hmem
      obtain ⟨rfl, rfl⟩ := DocUpdate.mk.inj (heq.symm.trans hdoc)
      exact ⟨hne, rfl⟩
    · rintro ⟨hne, heq⟩
      dsimp only at hne heq
      subst heq
      refine ⟨(docId, ⟨docId, contents docId⟩), ?_, rfl⟩
      rw [Std.ExtTreeMap.mem_toList_iff_getElem?_eq_some, h docId, if_neg hne]

theorem Represents.addBatchDoc (h : Represents docs contents.reread) {update : DocUpdate}
    (hreadable : update.readable = true) :
    ∃ later, Checkpoint.addBatchDoc docs (StoredDoc.ofUpdate update) = .ok later ∧
      Represents later (contents.set update).reread := by
  rw [Checkpoint.addBatchDoc, toUpdate?_ofUpdate, if_pos hreadable, Contents.reread_set]
  by_cases hnone : update.reread.entries = []
  · exact ⟨_, by simp [hnone], h.erase hnone⟩
  · exact ⟨_, by simp [hnone], h.insert hnone⟩

theorem addBatchDoc_of_not_readable (docs : DocMap) {update : DocUpdate}
    (hreadable : update.readable = false) :
    Checkpoint.addBatchDoc docs (StoredDoc.ofUpdate update) = .error .unreadableValue := by
  rw [Checkpoint.addBatchDoc, toUpdate?_ofUpdate, if_neg (by simp [hreadable])]

theorem foldlM_addBatchDoc (h : Represents docs contents.reread) {updates : List DocUpdate}
    (hreadable : ∀ update ∈ updates, update.readable = true) :
    ∃ later, (updates.map StoredDoc.ofUpdate).foldlM Checkpoint.addBatchDoc docs = .ok later ∧
      Represents later (contents.setAll updates).reread := by
  induction updates generalizing docs contents with
  | nil => exact ⟨docs, rfl, h⟩
  | cons update rest ih =>
      obtain ⟨next, hnext, hrepresents⟩ := h.addBatchDoc (hreadable update List.mem_cons_self)
      obtain ⟨later, hlater, hrest⟩ := ih hrepresents fun other hother =>
        hreadable other (List.mem_cons_of_mem _ hother)
      refine ⟨later, ?_, hrest⟩
      rw [List.map_cons, List.foldlM_cons, hnext]
      exact hlater

theorem foldlM_addBatchDoc_of_not_readable (docs : DocMap) {updates : List DocUpdate}
    (hreadable : ∃ update ∈ updates, update.readable = false) :
    (updates.map StoredDoc.ofUpdate).foldlM Checkpoint.addBatchDoc docs
      = .error .unreadableValue := by
  induction updates generalizing docs with
  | nil => simp at hreadable
  | cons update rest ih =>
      rw [List.map_cons, List.foldlM_cons]
      cases hupdate : update.readable with
      | false => rw [addBatchDoc_of_not_readable docs hupdate]; rfl
      | true =>
          rw [Checkpoint.addBatchDoc, toUpdate?_ofUpdate, if_pos hupdate]
          apply ih
          simpa [hupdate] using hreadable

/-- The documents of an image all have entries, so they are taken in like those of a batch. -/
theorem foldlM_addImageDoc (docs : DocMap) {listed : List DocUpdate}
    (hsome : ∀ doc ∈ listed, doc.entries ≠ []) :
    (listed.map StoredDoc.ofUpdate).foldlM Checkpoint.addImageDoc docs
      = (listed.map StoredDoc.ofUpdate).foldlM Checkpoint.addBatchDoc docs := by
  induction listed generalizing docs with
  | nil => rfl
  | cons doc rest ih =>
      have hdoc : Checkpoint.addImageDoc docs (StoredDoc.ofUpdate doc)
          = Checkpoint.addBatchDoc docs (StoredDoc.ofUpdate doc) := by
        have hne := hsome doc List.mem_cons_self
        rw [Checkpoint.addImageDoc, Checkpoint.addBatchDoc, toUpdate?_ofUpdate]
        cases doc.readable <;> simp [DocUpdate.reread, hne]
      rw [List.map_cons, List.foldlM_cons, List.foldlM_cons, hdoc]
      congr 1
      funext next
      exact ih next fun other hother => hsome other (List.mem_cons_of_mem _ hother)

end

end Checkpoint

end Storage

end ViewIndex
