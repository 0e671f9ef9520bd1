import Mathlib.Data.Nat.Size
import ViewIndex.Proofs.Lists
import ViewIndex.Proofs.Tree.Edit

/-!
# Building a tree at once

The tree built from ordered entries lists them again, and it is sound because halving a list over
and over takes as many steps on both sides, give or take one: its height is the number of binary
digits of its length. Sorting first and keeping the last entry of each identity, `Tree.ofEntries`
gives a well-formed tree whatever the entries are. Its shape is not that of the tree into which they
are inserted one after the other, but it has the same entries: an entry is in either exactly if it
is the last one with its identity.
-/

namespace ViewIndex.Tree

variable {r : Reducer}

theorem size_of_pos {n : Nat} (h : 0 < n) : n.size = 1 + (n / 2).size := by
  have hbit : Nat.bit n.bodd n.div2 = n := Nat.bit_bodd_div2 n
  have hne : Nat.bit n.bodd n.div2 ≠ 0 := by omega
  have hsize := Nat.size_bit hne
  rw [hbit, Nat.div2_val] at hsize
  omega

theorem size_succ_le (n : Nat) : (n + 1).size ≤ n.size + 1 := by
  have hlt := Nat.lt_size_self n
  rw [Nat.size_le, Nat.pow_succ]
  omega

section Build

variable {fuel : Nat} {entries : List Entry}

theorem build_nil (fuel : Nat) : build r fuel [] = nil := by
  cases fuel <;> rfl

/-- A tree of some entries has the middle one at its root. -/
theorem build_succ (fuel : Nat) (hne : entries ≠ []) : ∃ entry after,
    entries.drop (entries.length / 2) = entry :: after ∧
      build r (fuel + 1) entries
        = join r entry (build r fuel (entries.take (entries.length / 2))) (build r fuel after) := by
  have hpos := List.length_pos_of_ne_nil hne
  cases hdrop : entries.drop (entries.length / 2) with
  | nil =>
      rw [List.drop_eq_nil_iff] at hdrop
      omega
  | cons entry after => exact ⟨entry, after, rfl, by rw [build, hdrop]⟩

theorem toList_build (h : entries.length ≤ fuel) : (build r fuel entries).toList = entries := by
  induction fuel generalizing entries with
  | zero => rw [List.length_eq_zero_iff.mp (Nat.le_zero.mp h)]; rfl
  | succ fuel ih =>
      by_cases hne : entries = []
      · rw [hne, build_nil]
        rfl
      obtain ⟨entry, after, hdrop, hbuild⟩ := build_succ (r := r) fuel hne
      have hpos := List.length_pos_of_ne_nil hne
      have hlen := congrArg List.length hdrop
      rw [List.length_drop, List.length_cons] at hlen
      rw [hbuild, toList_join, ih (by rw [List.length_take]; omega), ih (by omega), ← hdrop,
        List.take_append_drop]

theorem sound_build (entries : List Entry) (h : entries.length ≤ fuel) :
    (build r fuel entries).Sound r ∧ (build r fuel entries).height = entries.length.size := by
  induction fuel generalizing entries with
  | zero =>
      rw [List.length_eq_zero_iff.mp (Nat.le_zero.mp h)]
      exact ⟨sound_nil, Nat.size_zero.symm⟩
  | succ fuel ih =>
      by_cases hne : entries = []
      · rw [hne, build_nil]
        exact ⟨sound_nil, Nat.size_zero.symm⟩
      obtain ⟨entry, after, hdrop, hbuild⟩ := build_succ (r := r) fuel hne
      have hpos := List.length_pos_of_ne_nil hne
      have hlen := congrArg List.length hdrop
      rw [List.length_drop, List.length_cons] at hlen
      have htake : (entries.take (entries.length / 2)).length = entries.length / 2 := by
        rw [List.length_take]
        omega
      obtain ⟨hleft, hleftHeight⟩ := ih (entries.take (entries.length / 2)) (by omega)
      obtain ⟨hright, hrightHeight⟩ := ih after (by omega)
      -- The right half has as many entries as the left one, or one less.
      have hfewer : after.length.size ≤ (entries.length / 2).size :=
        Nat.size_le_size (by omega)
      have hmore : (entries.length / 2).size ≤ after.length.size + 1 :=
        Nat.le_trans (Nat.size_le_size (by omega)) (size_succ_le _)
      rw [htake] at hleftHeight
      rw [hbuild, height_join, size_of_pos hpos]
      exact ⟨sound_join hleft hright (by omega) (by omega), by omega⟩

theorem wellFormed_build (h : Ascending entries) :
    (build r entries.length entries).WellFormed r where
  ascending := by rwa [toList_build (Nat.le_refl _)]
  sound := (sound_build entries (Nat.le_refl _)).1

end Build

/-! ## Sorting -/

/-- No entry lies behind a later one. -/
def Sorted (entries : List Entry) : Prop :=
  entries.Pairwise fun a b => (compare a.id b.id).isLE

/-- The relation that entries are sorted by. -/
def notBehind (a b : Entry) : Bool := (compare a.id b.id).isLE

theorem notBehind_trans (a b c : Entry) (hab : notBehind a b = true)
    (hbc : notBehind b c = true) : notBehind a c = true :=
  Std.TransCmp.isLE_trans hab hbc

theorem notBehind_total (a b : Entry) : (notBehind a b || notBehind b a) = true := by
  have hswap : compare b.id a.id = (compare a.id b.id).swap := Std.OrientedCmp.eq_swap
  rw [notBehind, notBehind, hswap]
  cases compare a.id b.id <;> decide

theorem notBehind_of_id {a b : Entry} (h : a.id = b.id) : notBehind a b = true := by
  rw [notBehind, h, Std.ReflOrd.compare_self]
  rfl

theorem sorted_mergeSort (entries : List Entry) : Sorted (entries.mergeSort notBehind) :=
  List.pairwise_mergeSort notBehind_trans notBehind_total entries

/-- Sorting leaves the entries with one identity in their order. -/
theorem filter_mergeSort (id : EntryId) (entries : List Entry) :
    (entries.mergeSort notBehind).filter (fun e => e.id = id)
      = entries.filter fun e => e.id = id := by
  have halike : (entries.filter fun e => e.id = id).Pairwise fun a b => notBehind a b = true := by
    refine List.pairwise_of_forall_mem_list fun a ha b hb => notBehind_of_id ?_
    exact (of_decide_eq_true (List.mem_filter.mp ha).2).trans
      (of_decide_eq_true (List.mem_filter.mp hb).2).symm
  have hsublist := (List.sublist_mergeSort notBehind_trans notBehind_total halike
    (List.filter_sublist (l := entries))).filter fun e => e.id = id
  rw [List.filter_filter, List.filter_congr fun e _ => Bool.and_self _] at hsublist
  have hperm := (entries.mergeSort_perm notBehind).filter fun e => e.id = id
  exact (hsublist.eq_of_length hperm.length_eq.symm).symm

theorem keepLast_sublist (entries : List Entry) : (keepLast entries).Sublist entries := by
  induction entries using keepLast.induct with
  | case1 first second rest hid ih =>
      rw [keepLast, if_pos hid]
      exact ih.cons first
  | case2 first second rest hid ih =>
      rw [keepLast, if_neg hid]
      exact ih.cons_cons first
  | case3 entries hshort =>
      rw [keepLast]
      exact hshort

theorem Sorted.ascending_keepLast {entries : List Entry} (h : Sorted entries) :
    Ascending (keepLast entries) := by
  induction entries using keepLast.induct with
  | case1 first second rest hid ih =>
      rw [keepLast, if_pos hid]
      exact ih (List.pairwise_cons.mp h).2
  | case2 first second rest hid ih =>
      obtain ⟨hfirst, hrest⟩ := List.pairwise_cons.mp h
      rw [keepLast, if_neg hid]
      refine List.pairwise_cons.mpr ⟨fun e he => ?_, ih hrest⟩
      -- Sorted neighbours that do not have one identity are in strict order.
      have hlt : compare first.id second.id = .lt := by
        have hle := hfirst second List.mem_cons_self
        cases hcmp : compare first.id second.id with
        | lt => rfl
        | eq => exact absurd (Std.LawfulEqCmp.eq_of_compare hcmp) hid
        | gt => rw [hcmp] at hle; cases hle
      rcases List.mem_cons.mp ((keepLast_sublist _).subset he) with rfl | he
      · exact hlt
      · exact Std.TransCmp.lt_of_lt_of_isLE hlt ((List.pairwise_cons.mp hrest).1 e he)
  | case3 entries hshort =>
      rw [keepLast]
      · match entries, hshort with
        | [], _ => exact List.Pairwise.nil
        | [entry], _ => exact List.pairwise_singleton _ entry
        | first :: second :: rest, hshort => exact absurd rfl (hshort first second rest)
      · exact hshort

/-- Only an entry is dropped that another one with its identity follows. -/
theorem getLast?_filter_keepLast (id : EntryId) (entries : List Entry) :
    ((keepLast entries).filter fun e => e.id = id).getLast?
      = (entries.filter fun e => e.id = id).getLast? := by
  induction entries using keepLast.induct with
  | case1 first second rest hid ih =>
      rw [keepLast, if_pos hid, ih]
      by_cases he : second.id = id
      · have hfirst : first.id = id := hid.trans he
        simp [he, hfirst, List.getLast?_cons_cons]
      · have hfirst : first.id ≠ id := hid ▸ he
        simp [hfirst]
  | case2 first second rest hid ih =>
      rw [keepLast, if_neg hid]
      by_cases he : first.id = id
      · have hkeep (others : List Entry) : (first :: others).filter (fun e => e.id = id)
            = first :: others.filter fun e => e.id = id :=
          List.filter_cons_of_pos (decide_eq_true he)
        rw [hkeep, hkeep, List.getLast?_cons, List.getLast?_cons, ih]
      · have hdrop (others : List Entry) : (first :: others).filter (fun e => e.id = id)
            = others.filter fun e => e.id = id :=
          List.filter_cons_of_neg (by simpa using he)
        rw [hdrop, hdrop, ih]
  | case3 entries hshort =>
      rw [keepLast]
      exact hshort

/-! ## Last entries -/

/-- The entry is the last one with its identity. -/
def IsLast (entries : List Entry) (e : Entry) : Prop :=
  (entries.filter fun other => other.id = e.id).getLast? = some e

theorem isLast_concat {entries : List Entry} {new e : Entry} :
    IsLast (entries ++ [new]) e ↔ e = new ∨ IsLast entries e ∧ e.id ≠ new.id := by
  by_cases hid : new.id = e.id
  · rw [IsLast, getLast?_filter_concat entries (by simpa using hid), Option.some_inj,
      or_iff_left fun h => h.2 hid.symm, eq_comm]
  · have hne : e ≠ new := fun heq => hid (congrArg Entry.id heq.symm)
    rw [IsLast, IsLast, List.filter_append, List.filter_cons_of_neg (by simpa using hid),
      List.filter_nil, List.append_nil, or_iff_right hne, and_iff_left (Ne.symm hid)]

/-- Among entries with different identities each is the last one with its own. -/
theorem isLast_iff_mem {entries : List Entry} (h : (entries.map Entry.id).Nodup) {e : Entry} :
    IsLast entries e ↔ e ∈ entries := by
  constructor
  · intro hlast
    exact (List.mem_filter.mp (List.mem_of_getLast? hlast)).1
  · intro he
    have hkept : e ∈ entries.filter fun other => other.id = e.id :=
      List.mem_filter.mpr ⟨he, decide_eq_true rfl⟩
    have hlast := List.getLast?_eq_some_getLast (List.ne_nil_of_mem hkept)
    obtain ⟨hmem, hid⟩ := List.mem_filter.mp (List.mem_of_getLast? hlast)
    rw [IsLast, hlast, List.inj_on_of_nodup_map h hmem he (of_decide_eq_true hid)]

/-! ## Trees of any entries -/

theorem toList_ofEntries (entries : List Entry) :
    (ofEntries r entries).toList = keepLast (entries.mergeSort notBehind) :=
  toList_build (Nat.le_refl _)

theorem wellFormed_ofEntries (entries : List Entry) : (ofEntries r entries).WellFormed r where
  ascending := by rw [toList_ofEntries]; exact (sorted_mergeSort entries).ascending_keepLast
  sound := (sound_build _ (Nat.le_refl _)).1

/-- The tree has the last entry with each identity. -/
theorem mem_ofEntries_iff_isLast (entries : List Entry) (e : Entry) :
    e ∈ (ofEntries r entries).toList ↔ IsLast entries e := by
  have hdistinct := (wellFormed_ofEntries (r := r) entries).ascending.nodup_ids
  rw [← isLast_iff_mem hdistinct, toList_ofEntries, IsLast, getLast?_filter_keepLast,
    filter_mergeSort, IsLast]

theorem mem_ofEntries {entries : List Entry} (h : (entries.map Entry.id).Nodup) (e : Entry) :
    e ∈ (ofEntries r entries).toList ↔ e ∈ entries :=
  (mem_ofEntries_iff_isLast entries e).trans (isLast_iff_mem h)

/-! ## One entry after the other -/

theorem wellFormed_nil : nil.WellFormed r := ⟨ascending_nil, sound_nil⟩

theorem mem_insertAll_nil (entries : List Entry) (e : Entry) :
    e ∈ (entries.foldl (fun tree entry => (tree.insert r entry).1) nil).toList ↔
      IsLast entries e := by
  induction entries using List.reverseRecOn with
  | nil => exact ⟨nofun, nofun⟩
  | append_singleton entries new ih =>
      rw [List.foldl_concat, mem_insert new (wellFormed_nil.insertAll entries).ascending, ih,
        isLast_concat]

/-- Whatever the order of entries is and however often identities come up, a tree made of them at
once is well-formed, and it lists what the tree lists into which they are inserted one after the
other. -/
theorem ofEntries_eq_insertAll (r : Reducer) (entries : List Entry) :
    (ofEntries r entries).WellFormed r ∧
    (ofEntries r entries).toList
      = (entries.foldl (fun tree entry => (tree.insert r entry).1) nil).toList := by
  refine ⟨wellFormed_ofEntries entries, ?_⟩
  refine (wellFormed_ofEntries entries).ascending.ext
    (wellFormed_nil.insertAll entries).ascending fun e => ?_
  rw [mem_ofEntries_iff_isLast, mem_insertAll_nil]

end ViewIndex.Tree
