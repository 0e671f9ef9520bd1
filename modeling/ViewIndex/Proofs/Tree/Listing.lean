import ViewIndex.Proofs.Tree.Order
import ViewIndex.Tree.Range

/-!
# What a listing visits

A cut parts ascending entries into those before it and those behind it. So the listing of a range,
which starts at the first entry that it does not skip and ends at the first one at which it stops,
lists exactly the entries that the range holds, in either direction.
-/

namespace ViewIndex

/-- Identities compared without their ordinals. -/
def EntryId.compareDoc (a b : EntryId) : Ordering :=
  (compare a.key b.key).then (compare a.docId b.docId)

instance : Std.TransCmp EntryId.compareDoc :=
  inferInstanceAs (Std.TransCmp (compareLex (compareOn EntryId.key) (compareOn EntryId.docId)))

theorem EntryId.isLE_of_lt {a b : EntryId} (h : compare a b = .lt) :
    (compare a.key b.key).isLE ∧ (a.compareDoc b).isLE := by
  have hthen : (compare a.key b.key).then ((compare a.docId b.docId).then
      (compare a.ordinal b.ordinal)) = .lt := h
  unfold compareDoc
  cases hkey : compare a.key b.key <;> cases hdoc : compare a.docId b.docId <;> simp_all

/-- What lies before an entry that lies before the cut, does so too. -/
theorem Cut.isAfter_of_lt {cut : Cut} {a b : EntryId} (h : compare a b = .lt)
    (hb : cut.isAfter b = true) : cut.isAfter a = true := by
  obtain ⟨hkey, hdoc⟩ := EntryId.isLE_of_lt h
  cases cut with
  | start => exact hb
  | finish => rfl
  | beforeKey key =>
      rw [isAfter, Ordering.isLT_iff_eq_lt] at hb ⊢
      exact Std.TransCmp.lt_of_isLE_of_lt hkey hb
  | afterKey key => exact Std.TransCmp.isLE_trans hkey hb
  | beforeEntry other =>
      rw [isAfter, Ordering.isLT_iff_eq_lt] at hb ⊢
      exact Std.TransCmp.lt_trans h hb
  | afterEntry other =>
      rw [isAfter] at hb ⊢
      exact Std.TransCmp.isLE_trans (by rw [h]; rfl) hb
  | afterDoc key docId =>
      have hcut : (b.compareDoc ⟨key, docId, 0⟩).isLE := hb
      have htrans : (a.compareDoc ⟨key, docId, 0⟩).isLE := Std.TransCmp.isLE_trans hdoc hcut
      exact htrans

namespace Tree

/-- The entries in the direction of travel. -/
def listing (descending : Bool) (tree : Tree) : List Entry :=
  if descending then tree.toList.reverse else tree.toList

/-- Whether an entry is met before another in the direction of travel. -/
def Precedes (descending : Bool) (a b : Entry) : Prop :=
  if descending then compare b.id a.id = .lt else compare a.id b.id = .lt

theorem pairwise_listing {tree : Tree} (h : Ascending tree.toList) (descending : Bool) :
    (tree.listing descending).Pairwise (Precedes descending) := by
  cases descending with
  | false => exact h
  | true => exact List.pairwise_reverse.mpr h

theorem listing_node (descending : Bool) (entry : Entry) (left right : Tree) (height len : Nat)
    (agg : Aggregate) : (node entry left right height len agg).listing descending
      = if descending then right.listing descending ++ entry :: left.listing descending
        else left.listing descending ++ entry :: right.listing descending := by
  cases descending <;> simp [listing, toList]

namespace Cursor

/-- The entries that pending entries stand for, in the direction of travel. -/
def ahead (descending : Bool) : List (Entry × Tree) → List Entry
  | [] => []
  | (entry, subtree) :: rest => entry :: (subtree.listing descending ++ ahead descending rest)

theorem ahead_descend (descending : Bool) (pending : List (Entry × Tree)) (tree : Tree) :
    ahead descending (descend descending pending tree)
      = tree.listing descending ++ ahead descending pending := by
  induction tree generalizing pending with
  | nil => cases descending <;> rfl
  | node entry left right height len agg ihleft ihright =>
      rw [descend, listing_node]
      split
      · rw [ihright, ahead, List.append_assoc, List.cons_append]
      · rw [ihleft, ahead, List.append_assoc, List.cons_append]

theorem toList_of_next?_eq_none {cursor : Cursor} (h : cursor.next? = none) :
    cursor.toList = [] := by
  unfold toList
  split
  next => rfl
  next hsome => rw [h] at hsome; cases hsome

theorem toList_of_next?_eq_some {cursor later : Cursor} {entry : Entry}
    (h : cursor.next? = some (entry, later)) : cursor.toList = entry :: later.toList := by
  rw [toList]
  split
  next hnone => rw [h] at hnone; cases hnone
  next hsome => rw [h] at hsome; cases hsome; rfl

/-- What comes next is the first of the entries that are still to be listed. -/
theorem map_fst_next? (cursor : Cursor) : cursor.next?.map Prod.fst = cursor.toList.head? := by
  cases hnext : cursor.next? with
  | none => rw [toList_of_next?_eq_none hnext]; rfl
  | some item => rw [toList_of_next?_eq_some hnext]; rfl

theorem toList_drop (n : Nat) (cursor : Cursor) :
    (cursor.drop n).toList = cursor.toList.drop n := by
  induction n generalizing cursor with
  | zero => rfl
  | succ n ih =>
      rw [drop]
      cases hnext : cursor.next? with
      | none => rw [toList_of_next?_eq_none hnext, List.drop_nil]
      | some item =>
          obtain ⟨entry, later⟩ := item
          rw [toList_of_next?_eq_some hnext, List.drop_succ_cons]
          exact ih later

theorem toList_eq_takeWhile (cursor : Cursor) :
    cursor.toList = (ahead cursor.descending cursor.pending).takeWhile
      fun e => !stops cursor.range cursor.descending e.id := by
  induction cursor using Cursor.toList.induct with
  | case1 cursor hnext =>
      rw [toList_of_next?_eq_none hnext]
      unfold next? at hnext
      split at hnext
      next hpending => rw [hpending]; rfl
      next entry subtree rest hpending =>
        split at hnext
        next hstops => rw [hpending, ahead, List.takeWhile_cons_of_neg (by simp [hstops])]
        next => cases hnext
  -- What is pending behind the entry begins with its subtree, which the step descends into.
  | case2 cursor entry later hnext hlt ih =>
      rw [toList_of_next?_eq_some hnext, ih]
      unfold next? at hnext
      split at hnext
      next => cases hnext
      next first subtree rest hpending =>
        split at hnext
        next => cases hnext
        next hstops =>
          cases hnext
          rw [hpending, ahead, List.takeWhile_cons_of_pos (by simp [hstops]), ahead_descend]

section Range

variable {range : KeyRange} {descending : Bool} {a b : Entry}

theorem skips_of_precedes (h : Precedes descending a b) (hb : skips range descending b.id = true) :
    skips range descending a.id = true := by
  cases descending with
  | false => exact Cut.isAfter_of_lt h hb
  | true =>
      unfold skips at hb ⊢
      rw [if_pos rfl, Bool.not_eq_true'] at hb ⊢
      by_contra ha
      rw [Cut.isAfter_of_lt h (by simpa using ha)] at hb
      cases hb

theorem stops_of_precedes (h : Precedes descending a b) (ha : stops range descending a.id = true) :
    stops range descending b.id = true := by
  cases descending with
  | false =>
      unfold stops at ha ⊢
      rw [if_neg Bool.false_ne_true, Bool.not_eq_true'] at ha ⊢
      by_contra hb
      rw [Cut.isAfter_of_lt h (by simpa using hb)] at ha
      cases ha
  | true => exact Cut.isAfter_of_lt h ha

/-- Whatever is met before a skipped entry is skipped, and nothing behind one that is not. -/
theorem filter_skips {entries rest : List Entry} {entry : Entry}
    (h : (entries ++ entry :: rest).Pairwise (Precedes descending)) :
    (entries ++ entry :: rest).filter (fun e => !skips range descending e.id)
      = if skips range descending entry.id then rest.filter fun e => !skips range descending e.id
        else entries.filter (fun e => !skips range descending e.id) ++ entry :: rest := by
  obtain ⟨-, hrest, hentries⟩ := List.pairwise_append.mp h
  obtain ⟨hbehind, -⟩ := List.pairwise_cons.mp hrest
  rw [List.filter_append]
  split
  next hskips =>
    have hnone : entries.filter (fun e => !skips range descending e.id) = [] := by
      refine List.filter_eq_nil_iff.mpr fun e he => ?_
      rw [skips_of_precedes (hentries e he entry List.mem_cons_self) hskips]
      decide
    rw [hnone, List.filter_cons_of_neg (by simp [hskips]), List.nil_append]
  next hskips =>
    have hall : rest.filter (fun e => !skips range descending e.id) = rest := by
      refine List.filter_eq_self.mpr fun e he => ?_
      rw [Bool.not_eq_true']
      by_contra hskipped
      exact hskips (skips_of_precedes (hbehind e he) (by simpa using hskipped))
    rw [List.filter_cons_of_pos (by simpa using hskips), hall]

/-- A listing starts at the first entry that is not skipped. -/
theorem ahead_seek {tree : Tree} (h : Ascending tree.toList) (pending : List (Entry × Tree)) :
    ahead descending (seek range descending pending tree)
      = (tree.listing descending).filter (fun e => !skips range descending e.id)
        ++ ahead descending pending := by
  induction tree generalizing pending with
  | nil => cases descending <;> rfl
  | node entry left right height len agg ihleft ihright =>
      obtain ⟨hleft, hright, -, -⟩ := ascending_append_cons.mp h
      have hlisting := pairwise_listing h descending
      rw [listing_node] at hlisting ⊢
      unfold seek
      split
      next hskips =>
        rw [ihright hright, if_neg Bool.false_ne_true, filter_skips hlisting, if_pos hskips]
      next hskips =>
        rw [ihleft hleft, if_neg Bool.false_ne_true, filter_skips hlisting, hskips,
          if_neg Bool.false_ne_true, ahead, List.append_assoc, List.cons_append]
      next hskips => rw [ihleft hleft, if_pos rfl, filter_skips hlisting, if_pos hskips]
      next hskips =>
        rw [ihright hright, if_pos rfl, filter_skips hlisting, hskips,
          if_neg Bool.false_ne_true, ahead, List.append_assoc, List.cons_append]

/-- Where entries stop, they stop for good. -/
theorem takeWhile_stops {entries : List Entry} (h : entries.Pairwise (Precedes descending)) :
    entries.takeWhile (fun e => !stops range descending e.id)
      = entries.filter fun e => !stops range descending e.id := by
  induction entries with
  | nil => rfl
  | cons entry rest ih =>
      obtain ⟨hbehind, hrest⟩ := List.pairwise_cons.mp h
      cases hstops : stops range descending entry.id with
      | false =>
          rw [List.takeWhile_cons_of_pos (by simp [hstops]), ih hrest,
            List.filter_cons_of_pos (by simp [hstops])]
      | true =>
          have hnone : rest.filter (fun e => !stops range descending e.id) = [] := by
            refine List.filter_eq_nil_iff.mpr fun e he => ?_
            rw [stops_of_precedes (hbehind e he) hstops]
            decide
          rw [List.takeWhile_cons_of_neg (by simp [hstops]),
            List.filter_cons_of_neg (by simp [hstops]), hnone]

end Range

end Cursor

/-- A listing consists of the entries that its range holds. -/
theorem toList_cursor {tree : Tree} (h : Ascending tree.toList) (range : KeyRange)
    (descending : Bool) : (tree.cursor range descending).toList
      = (tree.listing descending).filter fun e => range.holds e.id := by
  have hlisting := pairwise_listing h descending
  have hpairwise := hlisting.filter fun e => !Cursor.skips range descending e.id
  rw [cursor, Cursor.toList_eq_takeWhile, Cursor.ahead_seek h, Cursor.ahead, List.append_nil,
    Cursor.takeWhile_stops hpairwise, List.filter_filter]
  refine List.filter_congr fun e _ => ?_
  cases descending <;> simp [Cursor.stops, Cursor.skips, KeyRange.holds, Bool.and_comm]

end Tree

end ViewIndex
