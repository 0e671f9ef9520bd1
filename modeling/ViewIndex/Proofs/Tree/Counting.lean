import ViewIndex.Proofs.Lists
import ViewIndex.Proofs.Tree.Build
import ViewIndex.Proofs.Tree.Listing
import ViewIndex.Tree.Groups

/-!
# Places of cuts

The entries before a cut are the first ones of a tree, as many as `Tree.countBefore` says. So the
entries of a range stand between two places, which tells how many there are and how many come before
them in the direction of travel.
-/

namespace ViewIndex

variable {entries : List Entry}

/-- How many entries lie before a cut. -/
def placeOf (cut : Cut) (entries : List Entry) : Nat := entries.countP fun e => cut.isAfter e.id

theorem placeOf_append (cut : Cut) (a b : List Entry) :
    placeOf cut (a ++ b) = placeOf cut a + placeOf cut b :=
  List.countP_append

theorem placeOf_le (cut : Cut) (entries : List Entry) : placeOf cut entries ≤ entries.length :=
  List.countP_le_length

/-- Behind an entry that lies behind the cut, all do. -/
theorem placeOf_cons_of_not_isAfter {cut : Cut} {e : Entry} (h : Ascending (e :: entries))
    (he : cut.isAfter e.id = false) : placeOf cut (e :: entries) = 0 := by
  apply List.countP_eq_zero.mpr
  intro other hother hafter
  rcases List.mem_cons.mp hother with rfl | hother
  · rw [he] at hafter
    cases hafter
  · rw [Cut.isAfter_of_lt (List.rel_of_pairwise_cons h hother) hafter] at he
    cases he

/-- The entries of a range stand between the places of its cuts. -/
theorem filter_holds_eq (h : Ascending entries) (range : KeyRange) :
    entries.filter (fun e => range.holds e.id)
      = (entries.take (placeOf range.hi entries)).drop (placeOf range.lo entries) := by
  induction entries with
  | nil => rfl
  | cons e rest ih =>
      have hrest := ih (List.Pairwise.of_cons h)
      cases hhi : range.hi.isAfter e.id with
      | false =>
          have hnone : (e :: rest).filter (fun e => range.holds e.id) = [] := by
            apply List.filter_eq_nil_iff.mpr
            intro other hother hholds
            have hafter : range.hi.isAfter other.id = true := by
              simp only [KeyRange.holds, Bool.and_eq_true] at hholds
              exact hholds.2
            exact List.countP_eq_zero.mp (placeOf_cons_of_not_isAfter h hhi) other hother hafter
          rw [hnone, placeOf_cons_of_not_isAfter h hhi, List.take_zero, List.drop_nil]
      | true =>
          have hplace : placeOf range.hi (e :: rest) = placeOf range.hi rest + 1 := by
            simp [placeOf, hhi]
          rw [hplace, List.take_succ_cons]
          cases hlo : range.lo.isAfter e.id with
          | true =>
              have hskip : placeOf range.lo (e :: rest) = placeOf range.lo rest + 1 := by
                simp [placeOf, hlo]
              rw [hskip, List.drop_succ_cons, ← hrest,
                List.filter_cons_of_neg (by simp [KeyRange.holds, hlo])]
          | false =>
              have hzero : placeOf range.lo rest = 0 := by
                have hall := List.countP_eq_zero.mp (placeOf_cons_of_not_isAfter h hlo)
                exact List.countP_eq_zero.mpr fun other hother =>
                  hall other (List.mem_cons_of_mem _ hother)
              rw [placeOf_cons_of_not_isAfter h hlo, List.drop_zero,
                List.filter_cons_of_pos (by simp [KeyRange.holds, hlo, hhi]), hrest, hzero,
                List.drop_zero]

/-- Of two cuts, the one at the later place lies behind whatever the other lies behind. -/
theorem isAfter_of_placeOf_le (h : Ascending entries) {a b : Cut}
    (hle : placeOf a entries ≤ placeOf b entries) {e : Entry} (he : e ∈ entries)
    (ha : a.isAfter e.id = true) : b.isAfter e.id = true := by
  -- Otherwise `e` lies between the cuts, and there is no place between them.
  by_contra hb
  rw [Bool.not_eq_true] at hb
  have hmem : e ∈ entries.filter fun e => (KeyRange.mk b a).holds e.id := by
    apply List.mem_filter.mpr
    simp [KeyRange.holds, he, ha, hb]
  rw [filter_holds_eq h] at hmem
  have hlength := List.length_pos_of_mem hmem
  rw [List.length_drop, List.length_take] at hlength
  dsimp only at hlength
  omega

namespace Tree

variable {r : Reducer} {tree : Tree}

theorem countBefore_eq (h : tree.WellFormed r) (cut : Cut) :
    tree.countBefore cut = placeOf cut tree.toList := by
  obtain ⟨hascending, hsound⟩ := h
  induction tree with
  | nil => rfl
  | node entry left right height len agg ihleft ihright =>
      obtain ⟨hleft, hright, hbelow, habove⟩ := ascending_append_cons.mp hascending
      obtain ⟨hl, hr, -⟩ := hsound
      have hbehind : Ascending (entry :: right.toList) :=
        (List.pairwise_append.mp hascending).2.1
      rw [countBefore, toList, placeOf_append]
      split
      next hafter =>
        have hall : placeOf cut left.toList = left.toList.length :=
          List.countP_eq_length.mpr fun e he => Cut.isAfter_of_lt (hbelow e he) hafter
        have hcons : placeOf cut (entry :: right.toList) = placeOf cut right.toList + 1 := by
          simp [placeOf, hafter]
        rw [ihright hright hr, hl.len_eq, hall, hcons]
        omega
      next hafter =>
        rw [ihleft hleft hl, placeOf_cons_of_not_isAfter hbehind (by simpa using hafter),
          Nat.add_zero]

/-! ## The entries of a range -/

/-- The entries of a range in the direction of travel. -/
def met (tree : Tree) (descending : Bool) (range : KeyRange) : List Entry :=
  (tree.listing descending).filter fun e => range.holds e.id

theorem toList_cursor_eq_met (h : tree.WellFormed r) (range : KeyRange) (descending : Bool) :
    (tree.cursor range descending).toList = tree.met descending range :=
  toList_cursor h.ascending range descending

theorem mem_listing {descending : Bool} {e : Entry} :
    e ∈ tree.listing descending ↔ e ∈ tree.toList := by
  rw [listing]
  split
  next => exact List.mem_reverse
  next => exact Iff.rfl

theorem mem_met {descending : Bool} {range : KeyRange} {e : Entry} :
    e ∈ tree.met descending range ↔ e ∈ tree.toList ∧ range.holds e.id = true := by
  rw [met, List.mem_filter, mem_listing]

theorem length_met (h : tree.WellFormed r) (descending : Bool) (range : KeyRange) :
    (tree.met descending range).length = tree.countRange range.lo range.hi := by
  have hlength : (tree.met descending range).length
      = (tree.toList.filter fun e => range.holds e.id).length := by
    cases descending with
    | false => rfl
    | true => simp [met, listing]
  rw [hlength, countRange, countBefore_eq h, countBefore_eq h, filter_holds_eq h.ascending,
    List.length_drop, List.length_take, Nat.min_eq_left (placeOf_le _ _)]

/-- The `n`-th call of a listing returns the `n`-th of its entries. -/
theorem next?_drop_cursor (h : tree.WellFormed r) (range : KeyRange) (descending : Bool) (n : Nat) :
    ((tree.cursor range descending).drop n).next?.map Prod.fst
      = (tree.met descending range)[n]? := by
  rw [Cursor.map_fst_next?, Cursor.toList_drop, toList_cursor_eq_met h, List.head?_drop]

/-- The entries between two cuts are listed from the first to the last or the other way round, call
by call and each once, and they are counted without being listed. -/
theorem cursor_of_wellFormed (h : tree.WellFormed r) :
    (∀ lo hi : Cut,
      let listed := tree.toList.filter fun e => !lo.isAfter e.id && hi.isAfter e.id
      Ascending listed ∧ listed.Nodup ∧
      (tree.cursor ⟨lo, hi⟩ false).toList = listed ∧
      (tree.cursor ⟨lo, hi⟩ true).toList = listed.reverse ∧
      (∀ n, ((tree.cursor ⟨lo, hi⟩ false).drop n).next?.map Prod.fst = listed[n]?) ∧
      (∀ n, ((tree.cursor ⟨lo, hi⟩ true).drop n).next?.map Prod.fst = listed.reverse[n]?) ∧
      tree.countRange lo hi = listed.length) ∧
    ∀ cut : Cut,
      tree.countBefore cut = (tree.toList.filter fun e => cut.isAfter e.id).length := by
  constructor
  · intro lo hi listed
    have hascending : Ascending listed := h.ascending.filter _
    have hforward : tree.met false ⟨lo, hi⟩ = listed := rfl
    have hbackward : tree.met true ⟨lo, hi⟩ = listed.reverse := List.filter_reverse ..
    refine ⟨hascending, hascending.nodup, ?_, ?_, fun n => ?_, fun n => ?_, ?_⟩
    · rw [toList_cursor_eq_met h, hforward]
    · rw [toList_cursor_eq_met h, hbackward]
    · rw [next?_drop_cursor h, hforward]
    · rw [next?_drop_cursor h, hbackward]
    · rw [← hforward, length_met h]
  · intro cut
    rw [countBefore_eq h, placeOf, List.countP_eq_length_filter]

section Sample

/-- An entry whose value tells it from the others with its key. -/
def sampleEntry (key : Bytes) (docId : String) (ordinal : Nat) : Entry :=
  ⟨⟨⟨key⟩, docId, ordinal⟩, .array [.text docId, .number (.int ordinal)]⟩

/-- Two entries of one document and one of another with one key, between entries with keys of fewer
components and with keys that do not decode. -/
def sample : List Entry :=
  [sampleEntry [0x10] "a" 0, sampleEntry [0x10, 0x20] "a" 0, sampleEntry [0x10, 0x20] "a" 1,
    sampleEntry [0x10, 0x20] "b" 0, sampleEntry [0x10, 0x20, 0xFF] "a" 0, sampleEntry [0xFF] "a" 0]

theorem ascending_sample : Ascending sample := by
  simp only [sample, Ascending, List.pairwise_cons]
  decide

/-- The tree of the sample. -/
def sampleTree (r : Reducer) : Tree := build r sample.length sample

theorem toList_sampleTree : (sampleTree r).toList = sample := toList_build (Nat.le_refl _)

theorem wellFormed_sampleTree : (sampleTree r).WellFormed r := wellFormed_build ascending_sample

/-- A range that begins and ends within the entries of one key, and cuts that cross. -/
theorem cursor_of_wellFormed_sample :
    let lo := Cut.afterEntry (sampleEntry [0x10, 0x20] "a" 0).id
    let hi := Cut.afterDoc ⟨[0x10, 0x20]⟩ "b"
    let tree := sampleTree .count
    (tree.cursor ⟨lo, hi⟩ false).toList
      = [sampleEntry [0x10, 0x20] "a" 1, sampleEntry [0x10, 0x20] "b" 0] ∧
    (tree.cursor ⟨lo, hi⟩ true).toList
      = [sampleEntry [0x10, 0x20] "b" 0, sampleEntry [0x10, 0x20] "a" 1] ∧
    tree.countRange lo hi = 2 ∧
    (tree.cursor ⟨hi, lo⟩ true).toList = [] ∧ tree.countRange hi lo = 0 ∧
    tree.countBefore lo = 2 := by
  intro lo hi tree
  obtain ⟨hranges, hcuts⟩ := cursor_of_wellFormed (wellFormed_sampleTree (r := .count))
  obtain ⟨-, -, hforward, hbackward, -, -, hcount⟩ := hranges lo hi
  obtain ⟨-, -, -, hcrossed, -, -, hnone⟩ := hranges hi lo
  exact ⟨hforward.trans (by decide), hbackward.trans (by decide), hcount.trans (by decide),
    hcrossed.trans (by decide), hnone.trans (by decide), (hcuts lo).trans (by decide)⟩

end Sample

/-- The entries of a range are met one after the other. -/
theorem exists_met_eq (h : tree.WellFormed r) (range : KeyRange) (descending : Bool) :
    ∃ n, tree.met descending range
      = ((tree.listing descending).drop (tree.skippedBy range descending)).take n := by
  have hfilter := filter_holds_eq h.ascending range
  rw [← countBefore_eq h, ← countBefore_eq h] at hfilter
  cases descending with
  | false =>
      refine ⟨tree.countBefore range.hi - tree.countBefore range.lo, ?_⟩
      rw [met, listing, skippedBy, if_neg Bool.false_ne_true, if_neg Bool.false_ne_true, hfilter,
        List.drop_take]
  | true =>
      refine ⟨(tree.toList.take (tree.countBefore range.hi)).length
        - tree.countBefore range.lo, ?_⟩
      rw [met, listing, skippedBy, if_pos rfl, if_pos rfl, List.filter_reverse, hfilter,
        List.reverse_drop, List.reverse_take, h.sound.len_eq]

/-! ## Cuts of one tree -/

section Cuts

variable {e : Entry}

theorem isAfter_laterCut (h : tree.WellFormed r) (a b : Cut) (he : e ∈ tree.toList) :
    (tree.laterCut a b).isAfter e.id = (a.isAfter e.id || b.isAfter e.id) := by
  rw [laterCut, countBefore_eq h, countBefore_eq h]
  split
  next hle =>
    rw [Bool.eq_iff_iff, Bool.or_eq_true]
    exact ⟨Or.inl, fun hor => hor.elim id (isAfter_of_placeOf_le h.ascending hle he)⟩
  next hlt =>
    have hle := Nat.le_of_lt (Nat.lt_of_not_le hlt)
    rw [Bool.eq_iff_iff, Bool.or_eq_true]
    exact ⟨Or.inr, fun hor => hor.elim (isAfter_of_placeOf_le h.ascending hle he) id⟩

theorem isAfter_earlierCut (h : tree.WellFormed r) (a b : Cut) (he : e ∈ tree.toList) :
    (tree.earlierCut a b).isAfter e.id = (a.isAfter e.id && b.isAfter e.id) := by
  rw [earlierCut, countBefore_eq h, countBefore_eq h]
  split
  next hle =>
    rw [Bool.eq_iff_iff, Bool.and_eq_true]
    exact ⟨fun ha => ⟨ha, isAfter_of_placeOf_le h.ascending hle he ha⟩, And.left⟩
  next hlt =>
    have hle := Nat.le_of_lt (Nat.lt_of_not_le hlt)
    rw [Bool.eq_iff_iff, Bool.and_eq_true]
    exact ⟨fun hb => ⟨isAfter_of_placeOf_le h.ascending hle he hb, hb⟩, And.right⟩

end Cuts

end Tree

end ViewIndex
