import Mathlib.Data.Set.Card
import ViewIndex.Proofs.Store.Contents
import ViewIndex.Proofs.Tree.Check
import ViewIndex.Proofs.Tree.Listing

/-!
# The store refines its contents

Whatever sequence of writes a store has gone through, its published tree, its document lists and its
counts are those of the entries that were submitted last for each document, and the check finds
nothing wrong.
-/

namespace ViewIndex

theorem Snapshot.entries_eq {snapshot : Snapshot} {r : Reducer} (h : snapshot.tree.WellFormed r) :
    snapshot.entries = snapshot.tree.toList := by
  rw [Snapshot.entries, Tree.toList_cursor h.ascending]
  simp [Tree.listing, KeyRange.holds, KeyRange.all, Cut.isAfter]

namespace IndexStore

variable {store : IndexStore} {contents : Contents}

/-- Everything that can be read off a store agrees with the contents. -/
structure Refines (store : IndexStore) (contents : Contents) : Prop where
  ascending : Ascending store.current.entries
  mem_entries : ∀ e, e ∈ store.current.entries ↔
    ∃ docId i key value, (contents docId)[i]? = some (key, value) ∧ e = ⟨⟨key, docId, i⟩, value⟩
  keysOf : ∀ docId, store.keysOf docId = (contents docId).map Prod.fst
  docCount : store.current.docCount = {docId | contents docId ≠ []}.encard
  applyBatch_snd : ∀ updates position, (store.applyBatch updates position).2
    = (contents.replaced updates, (updates.map fun update => update.entries.length).sum)
  check : store.check = .ok ()

theorem Holds.entries_eq (h : store.Holds contents) :
    store.current.entries = store.current.tree.toList :=
  Snapshot.entries_eq h.reflects.wellFormed

theorem Holds.mem_entries (h : store.Holds contents) (e : Entry) :
    e ∈ store.current.entries ↔ contents.Has e := by
  rw [h.entries_eq, h.reflects.mem_tree]

/-- What is published does not depend on how the store came to hold it. -/
theorem Holds.entries_unique (h : store.Holds contents) {other : IndexStore}
    (hother : other.Holds contents) : store.current.entries = other.current.entries := by
  rw [h.entries_eq, hother.entries_eq]
  apply h.reflects.wellFormed.ascending.ext hother.reflects.wellFormed.ascending
  intro e
  rw [h.reflects.mem_tree, hother.reflects.mem_tree]

theorem Holds.keysOf (h : store.Holds contents) (docId : String) :
    store.keysOf docId = (contents docId).map Prod.fst := by
  rw [IndexStore.keysOf, h.reflects.lists.getD_eq, Contents.ids, DocUpdate.map_key_ids]

theorem Holds.docCount_eq (h : store.Holds contents) :
    store.current.docCount = {docId | contents docId ≠ []}.encard := by
  have hdocs : {docId | contents docId ≠ []} = (store.byDoc.keys.toFinset : Set String) := by
    ext docId
    simp [← h.reflects.lists.mem_iff]
  rw [hdocs, Set.encard_coe_eq_coe_finsetCard,
    List.toFinset_card_of_nodup Std.ExtTreeMap.nodup_keys, Std.ExtTreeMap.length_keys, h.docCount]

theorem Holds.ids_of_mem_toList (h : store.Holds contents) {item : String × List EntryId}
    (hmem : item ∈ store.byDoc.toList) : item.2 = contents.ids item.1 := by
  rw [Std.ExtTreeMap.mem_toList_iff_getElem?_eq_some, h.reflects.lists item.1] at hmem
  split at hmem
  next => cases hmem
  next => exact (Option.some.inj hmem).symm

theorem Holds.mem_listed_iff (h : store.Holds contents) (id : EntryId) :
    id ∈ store.byDoc.toList.flatMap Prod.snd ↔ ∃ e, contents.Has e ∧ e.id = id := by
  rw [List.mem_flatMap]
  constructor
  · rintro ⟨item, hitem, hid⟩
    rw [h.ids_of_mem_toList hitem] at hid
    obtain ⟨e, he, rfl⟩ := List.mem_map.mp hid
    refine ⟨e, (Contents.has_iff contents e).mpr ?_, rfl⟩
    rw [((DocUpdate.mem_indexEntries _ e).mp he).1]
    exact he
  · rintro ⟨e, hhas, rfl⟩
    have hne : contents e.id.docId ≠ [] := by
      intro hnil
      simp [Contents.Has, hnil] at hhas
    refine ⟨(e.id.docId, contents.ids e.id.docId), ?_, ?_⟩
    · rw [Std.ExtTreeMap.mem_toList_iff_getElem?_eq_some, h.reflects.lists, if_neg hne]
    · exact List.mem_map_of_mem ((Contents.has_iff contents e).mp hhas)

theorem Holds.nodup_listed (h : store.Holds contents) :
    (store.byDoc.toList.flatMap Prod.snd).Nodup := by
  rw [List.nodup_flatMap]
  constructor
  · intro item hitem
    rw [h.ids_of_mem_toList hitem]
    exact DocUpdate.nodup_ids _
  · refine Std.ExtTreeMap.distinct_keys_toList.imp_of_mem fun {a b} ha hb hne id hida hidb => ?_
    rw [h.ids_of_mem_toList ha] at hida
    rw [h.ids_of_mem_toList hb] at hidb
    rw [← Contents.docId_of_mem_ids hida, ← Contents.docId_of_mem_ids hidb] at hne
    exact hne Std.ReflOrd.compare_self

/-- The document lists together have every identity of the tree, once each. -/
theorem Holds.perm_listed (h : store.Holds contents) :
    (store.byDoc.toList.flatMap Prod.snd).Perm (store.current.tree.toList.map Entry.id) := by
  rw [List.perm_ext_iff_of_nodup h.nodup_listed h.reflects.wellFormed.ascending.nodup_ids]
  intro id
  rw [h.mem_listed_iff, List.mem_map]
  simp only [h.reflects.mem_tree]

/-- The document lists agree with the tree, so what the check can find is in the tree. -/
theorem Holds.check_eq (h : store.Holds contents) :
    store.check = store.current.tree.check store.reducer := by
  have hfind : (store.byDoc.toList.find? fun item =>
      item.2.any fun id => (store.current.tree.get? id).isNone) = none := by
    rw [List.find?_eq_none]
    intro item hitem
    simp only [List.any_eq_true, not_exists, not_and]
    intro id hid
    obtain ⟨e, hhas, rfl⟩ := (h.mem_listed_iff id).mp (List.mem_flatMap.mpr ⟨item, hitem, hid⟩)
    have hget : store.current.tree.get? e.id = some e :=
      (Tree.get?_eq_some_iff h.reflects.wellFormed.ascending e.id e).mpr
        ⟨(h.reflects.mem_tree e).mpr hhas, rfl⟩
    simp [hget]
  -- So the sums of the list lengths and of the tree are the same, too.
  have hlisted : (store.byDoc.toList.map fun item => item.2.length).foldr (· + ·) 0
      = store.current.tree.len := by
    have hlength := h.perm_listed.length_eq
    rw [List.length_flatMap, List.length_map] at hlength
    rw [h.reflects.wellFormed.sound.len_eq, ← hlength]
    rfl
  rw [check]
  cases store.current.tree.check store.reducer with
  | error e => rfl
  | ok _ =>
      simp only [bind, Except.bind, hfind, hlisted]
      rw [if_neg (not_not.mpr rfl)]
      rfl

theorem Holds.check_eq_ok (h : store.Holds contents) (hexact : store.reducer.IsExact) :
    store.check = .ok () :=
  h.check_eq.trans (h.reflects.wellFormed.check_eq_ok hexact)

theorem Holds.refines (h : store.Holds contents) (hexact : store.reducer.IsExact) :
    store.Refines contents where
  ascending := by rw [h.entries_eq]; exact h.reflects.wellFormed.ascending
  mem_entries e := by
    rw [h.mem_entries]
    constructor
    · intro hhas
      exact ⟨e.id.docId, e.id.ordinal, e.id.key, e.value, hhas, rfl⟩
    · rintro ⟨docId, i, key, value, hget, rfl⟩
      exact hget
  keysOf := h.keysOf
  docCount := h.docCount_eq
  applyBatch_snd := h.applyBatch_snd
  check := h.check_eq_ok hexact

/-! ## Runs -/

/-- A write to a store. -/
inductive Write where
  | upsert (docId : String) (entries : List (EncodedKey × Json))
  | remove (docId : String)
  | applyBatch (updates : List DocUpdate) (position : Option Position)
  | replaceAll (docs : List DocUpdate) (position : Position)

/-- Whoever replaces everything lists each document once. -/
def Write.Distinct : Write → Prop
  | .replaceAll docs _ => (docs.map DocUpdate.docId).Nodup
  | _ => True

def write (store : IndexStore) : Write → IndexStore
  | .upsert docId entries => store.upsert docId entries
  | .remove docId => store.remove docId
  | .applyBatch updates position => (store.applyBatch updates position).1
  | .replaceAll docs position => store.replaceAll docs position

end IndexStore

/-- The entries submitted last for each document, after a write. -/
def Contents.write (contents : Contents) : IndexStore.Write → Contents
  | .upsert docId entries => contents.set ⟨docId, entries⟩
  | .remove docId => contents.set ⟨docId, []⟩
  | .applyBatch updates _ => contents.setAll updates
  | .replaceAll docs _ => empty.setAll docs

namespace IndexStore

variable {store : IndexStore} {contents : Contents}

theorem Holds.write (h : store.Holds contents) {w : Write} (hdistinct : w.Distinct) :
    (store.write w).Holds (contents.write w) := by
  cases w with
  | upsert docId entries => exact h.applyBatch [⟨docId, entries⟩] none
  | remove docId => exact h.applyBatch [.removal docId] none
  | applyBatch updates position => exact h.applyBatch updates position
  | replaceAll docs position => exact holds_replaceAll store hdistinct position

theorem reducer_write (store : IndexStore) (w : Write) :
    (store.write w).reducer = store.reducer := by
  cases w <;> rfl

theorem Holds.foldl_write (h : store.Holds contents) {writes : List Write}
    (hdistinct : ∀ w ∈ writes, w.Distinct) :
    (writes.foldl IndexStore.write store).Holds (writes.foldl Contents.write contents) ∧
      (writes.foldl IndexStore.write store).reducer = store.reducer := by
  induction writes generalizing store contents with
  | nil => exact ⟨h, rfl⟩
  | cons w rest ih =>
      obtain ⟨hholds, hreducer⟩ := ih (h.write (hdistinct w List.mem_cons_self))
        fun later hlater => hdistinct later (List.mem_cons_of_mem _ hlater)
      exact ⟨hholds, hreducer.trans (reducer_write store w)⟩

/-- After any sequence of writes to an empty store that counts its entries or reduces them by
functions on JSON, everything that can be read off it agrees with the entries submitted last for
each document. -/
theorem refines_of_writes (name : String) (reducer : Option Reducer)
    (hexact : ∀ r, reducer = some r → r.IsExact) (writes : List Write)
    (hdistinct : ∀ w ∈ writes, w.Distinct) :
    (writes.foldl write (empty name reducer)).Refines
      (writes.foldl Contents.write Contents.empty) := by
  obtain ⟨hholds, hreducer⟩ := (holds_empty name reducer).foldl_write hdistinct
  apply hholds.refines
  rw [hreducer]
  cases reducer with
  | none => trivial
  | some r => exact hexact r rfl

/-- Two updates of one document in a batch after everything was replaced. -/
theorem keysOf_after_batch :
    (([.replaceAll [⟨"a", [(⟨[3]⟩, .null)]⟩] ∅,
        .applyBatch [⟨"b", [(⟨[1]⟩, .null)]⟩, ⟨"b", [(⟨[2]⟩, .null), (⟨[1]⟩, .null)]⟩] none,
        .remove "a"] : List Write).foldl write
      (empty "tags" (some (.custom ⟨"last", id, fun _ later => later, .null⟩)))).keysOf "b"
      = [⟨[2]⟩, ⟨[1]⟩] :=
  (refines_of_writes "tags" (some (.custom ⟨"last", id, fun _ later => later, .null⟩))
    (fun r h => by cases h; trivial) _
    (by
      intro w hw
      simp only [List.mem_cons, List.not_mem_nil, or_false] at hw
      rcases hw with rfl | rfl | rfl
      · exact List.nodup_singleton "a"
      · trivial
      · trivial)).keysOf "b"

end IndexStore

end ViewIndex
