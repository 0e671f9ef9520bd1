import Mathlib.Data.List.SplitBy
import ViewIndex.Proofs.Key.Prefixes
import ViewIndex.Proofs.Tree.Counting

/-!
# Groups are runs

Keys begin with their labels, and the keys between a label and a key with this label have it, too;
this holds of any bytes. So the entries of a group follow one another: they are those of a range up
to the cut behind the group, which is found from the label alone. Taking one group after the other
from a range gives the maximal runs of entries that share their label, and the labels are in order.
-/

namespace ViewIndex.Tree

namespace GroupLevel

/-- The components that the entries of a group share. -/
def cut (level : GroupLevel) (parts : Key) : Key :=
  match level with
  | .components count => parts.take count
  | .wholeKey => parts

variable {level : GroupLevel} {key other : EncodedKey} {parts others : Key}

theorem decodes_label (level : GroupLevel) (h : key.Decodes parts) :
    (level.label key).Decodes (level.cut parts) := by
  cases level with
  | components count => exact h.groupLabel count
  | wholeKey => exact h

/-- A key begins with its label. -/
theorem prefix_label (level : GroupLevel) (key : EncodedKey) :
    (level.label key).bytes <+: key.bytes := by
  cases level with
  | wholeKey => exact List.prefix_rfl
  | components count =>
      rcases key.groupLabel_cases count with ⟨-, hprefix⟩ | hself
      · exact hprefix
      · simp only [label, hself, List.prefix_rfl]

theorem isGE_label (level : GroupLevel) (key : EncodedKey) :
    (compare key (level.label key)).isGE = true :=
  Bytes.isGE_of_prefix (level.prefix_label key)

/-- Whether a label has as many components as asked for. -/
def Fills (level : GroupLevel) (label : EncodedKey) : Prop :=
  ∃ count, level = .components count ∧ label.arity = .ok count

theorem bound_of_fills (h : level.Fills key) : level.bound key = KeyRange.endOfPrefix key := by
  obtain ⟨count, rfl, harity⟩ := h
  rw [bound, harity]
  exact if_pos rfl

theorem bound_of_not_fills (h : ¬level.Fills key) : level.bound key = .afterKey key := by
  cases level with
  | wholeKey => rfl
  | components count =>
      rw [bound, if_neg]
      intro harity
      cases hcase : key.arity with
      | error e => rw [hcase] at harity; cases harity
      | ok n =>
          rw [hcase] at harity
          exact h ⟨count, rfl, hcase.trans (congrArg _ (Option.some.inj harity))⟩

/-- A label of as many components as asked for is that of the keys that begin with it. -/
theorem label_eq_iff_prefix (h : level.Fills other) :
    level.label key = other ↔ other.bytes <+: key.bytes := by
  constructor
  · rintro rfl
    exact level.prefix_label key
  · intro hprefix
    obtain ⟨count, rfl, harity⟩ := h
    exact EncodedKey.groupLabel_of_prefix harity hprefix

/-- Any other label is a whole key. -/
theorem label_eq_self (h : ¬level.Fills (level.label key)) : level.label key = key := by
  cases level with
  | wholeKey => rfl
  | components count =>
      exact (key.groupLabel_cases count).resolve_left fun hcase => h ⟨count, rfl, hcase.1⟩

theorem label_eq_label_iff (h : ¬level.Fills (level.label other)) :
    level.label key = level.label other ↔ key = other := by
  constructor
  · intro heq
    have hkey : level.label key = key := label_eq_self (heq ▸ h)
    rw [← hkey, heq, label_eq_self h]
  · rintro rfl
    rfl

/-- Keys no greater than another one have its label from the label on. -/
theorem lt_label_iff (level : GroupLevel) (hle : (compare key other).isLE = true) :
    compare key (level.label other) = .lt ↔ level.label key ≠ level.label other := by
  constructor
  · intro hlt heq
    have hge := level.isGE_label key
    rw [heq, hlt] at hge
    cases hge
  · intro hne
    by_contra hnot
    have hge : (compare key (level.label other)).isGE = true := by
      cases hcmp : compare key (level.label other) with
      | lt => exact absurd hcmp hnot
      | eq => rfl
      | gt => rfl
    by_cases hfills : level.Fills (level.label other)
    · rw [Ne, label_eq_iff_prefix hfills] at hne
      exact hne (Bytes.prefix_of_between hge hle (level.prefix_label other))
    · rw [label_eq_self hfills, Std.OrientedCmp.isGE_iff_isLE] at hge
      rw [Ne, label_eq_label_iff hfills] at hne
      exact hne (Std.LawfulEqCmp.eq_of_compare (Std.OrientedCmp.isLE_antisymm hle hge))

/-- Keys with different labels are in the order of their labels. -/
theorem label_lt_label (level : GroupLevel) (hle : (compare key other).isLE = true)
    (hne : level.label key ≠ level.label other) :
    compare (level.label key) (level.label other) = .lt := by
  have hlabel := level.isGE_label key
  rw [Std.OrientedCmp.isGE_iff_isLE] at hlabel
  exact Std.TransCmp.lt_of_isLE_of_lt hlabel ((level.lt_label_iff hle).mpr hne)

variable {id : EntryId}

/-- Of the entries that do not come before an entry of a group, those of the group come before the
cut behind it. -/
theorem isAfter_bound (level : GroupLevel) (hle : (compare other id.key).isLE = true) :
    (level.bound (level.label other)).isAfter id = true ↔
      level.label id.key = level.label other := by
  by_cases hfills : level.Fills (level.label other)
  · have hge : (compare id.key (level.label other)).isGE = true := by
      have hlabel := level.isGE_label other
      rw [Std.OrientedCmp.isGE_iff_isLE] at hlabel ⊢
      exact Std.TransCmp.isLE_trans hlabel hle
    rw [bound_of_fills hfills, KeyRange.isAfter_endOfPrefix hge, label_eq_iff_prefix hfills]
  · rw [bound_of_not_fills hfills, label_eq_label_iff hfills, label_eq_self hfills, Cut.isAfter]
    constructor
    · intro hge
      exact Std.LawfulEqCmp.eq_of_compare (Std.OrientedCmp.isLE_antisymm hge hle)
    · intro heq
      rwa [heq] at hle ⊢

/-- Of the entries that do not come after an entry of a group, those of the group come after the cut
before its label. -/
theorem isAfter_beforeKey_label (level : GroupLevel) (hle : (compare id.key other).isLE = true) :
    (Cut.beforeKey (level.label other)).isAfter id = false ↔
      level.label id.key = level.label other := by
  rw [Cut.isAfter, ← Bool.not_eq_true, Ordering.isLT_iff_eq_lt, level.lt_label_iff hle,
    Classical.not_not]

end GroupLevel

/-! ## Splitting off one group -/

section Split

variable {r : Reducer} {tree : Tree} {level : GroupLevel} {range : KeyRange} {descending : Bool}
  {first a b : Entry}

/-- Whether two entries belong to one group. -/
def sameGroup (level : GroupLevel) (a b : Entry) : Bool :=
  decide (level.label b.id.key = level.label a.id.key)

/-- The cut between a group and what is met behind it. -/
def groupEnd (level : GroupLevel) (descending : Bool) (first : Entry) : Cut :=
  if descending then .beforeKey (level.label first.id.key)
  else level.bound (level.label first.id.key)

/-- Whether an entry is met before a cut. -/
def metBefore (descending : Bool) (cut : Cut) (e : Entry) : Bool :=
  if descending then !cut.isAfter e.id else cut.isAfter e.id

/-- What is met before an entry that is met before a cut, is so, too. -/
theorem metBefore_of_precedes {cut : Cut} (h : Precedes descending a b)
    (hb : metBefore descending cut b = true) : metBefore descending cut a = true := by
  cases descending with
  | false => exact Cut.isAfter_of_lt h hb
  | true =>
      simp only [metBefore, if_true, Bool.not_eq_true'] at hb ⊢
      rw [← Bool.not_eq_true]
      intro ha
      rw [Cut.isAfter_of_lt h ha] at hb
      cases hb

/-- An entry that is met no earlier than another one is met before the end of the other's group
exactly if it belongs to it. -/
theorem metBefore_groupEnd (level : GroupLevel) (h : first = a ∨ Precedes descending first a) :
    metBefore descending (groupEnd level descending first) a = sameGroup level first a := by
  rw [Bool.eq_iff_iff, sameGroup, decide_eq_true_iff]
  have hself : (compare first.id.key first.id.key).isLE = true := by
    rw [Std.ReflOrd.compare_self]
    rfl
  cases descending with
  | false =>
      refine GroupLevel.isAfter_bound level ?_
      rcases h with rfl | hlt
      · exact hself
      · exact (EntryId.isLE_of_lt hlt).1
  | true =>
      simp only [metBefore, groupEnd, if_true, Bool.not_eq_true']
      refine GroupLevel.isAfter_beforeKey_label level ?_
      rcases h with rfl | hlt
      · exact hself
      · exact (EntryId.isLE_of_lt hlt).1

/-- Whatever lies before a cut behind which an entry lies, lies before any cut that lies behind this
entry. -/
theorem isAfter_of_isAfter {lo hi : Cut} {id other : EntryId} (hid : lo.isAfter id = true)
    (hlo : lo.isAfter other = false) (hhi : hi.isAfter other = true) : hi.isAfter id = true := by
  have hlt : compare id other = .lt := by
    cases hcmp : compare id other with
    | lt => rfl
    | eq =>
        obtain rfl := Std.LawfulEqCmp.eq_of_compare hcmp
        rw [hid] at hlo
        cases hlo
    | gt =>
        rw [Cut.isAfter_of_lt (Std.OrientedCmp.lt_of_gt hcmp) hid] at hlo
        cases hlo
  exact Cut.isAfter_of_lt hlt hhi

/-- The group has the entries of the range before its end, and the rest has the others. -/
theorem holds_splitGroup (h : tree.WellFormed r) (ha : a ∈ tree.toList)
    (hfirst : range.holds first.id = true)
    (hend : metBefore descending (groupEnd level descending first) first = true) :
    (tree.splitGroup range (level.label first.id.key) level descending).1.holds a.id
        = (range.holds a.id && metBefore descending (groupEnd level descending first) a) ∧
      (tree.splitGroup range (level.label first.id.key) level descending).2.holds a.id
        = (range.holds a.id && !metBefore descending (groupEnd level descending first) a) := by
  simp only [KeyRange.holds, Bool.and_eq_true, Bool.not_eq_true'] at hfirst
  obtain ⟨hlo, hhi⟩ := hfirst
  cases descending with
  | false =>
      simp only [metBefore, groupEnd, Bool.false_eq_true, if_false] at hend ⊢
      simp only [splitGroup, Bool.false_eq_true, if_false, KeyRange.holds,
        isAfter_earlierCut h _ _ ha, Bool.and_assoc, true_and]
      cases hbefore : range.lo.isAfter a.id with
      | false => simp [Bool.and_comm]
      -- What comes before the range comes before the end of the group.
      | true => simp [isAfter_of_isAfter hbefore hlo hend]
  | true =>
      simp only [metBefore, groupEnd, if_true, Bool.not_eq_true', Bool.not_not] at hend ⊢
      simp only [splitGroup, if_true, KeyRange.holds, isAfter_laterCut h _ _ ha, Bool.not_or]
      constructor
      · cases range.lo.isAfter a.id <;> simp [Bool.and_comm]
      · cases hafter : (Cut.beforeKey (level.label first.id.key)).isAfter a.id with
        | false => simp
        -- What comes before the group comes before the end of the range.
        | true => simp [isAfter_of_isAfter hafter hend hhi]

variable {rest : List Entry}

theorem mem_of_met_eq_cons (hmet : tree.met descending range = first :: rest) :
    first ∈ tree.toList ∧ range.holds first.id = true :=
  mem_met.mp (hmet ▸ List.mem_cons_self)

theorem precedes_of_met_eq_cons (h : tree.WellFormed r)
    (hmet : tree.met descending range = first :: rest) (ha : a ∈ tree.met descending range) :
    first = a ∨ Precedes descending first a := by
  have hpairwise := (pairwise_listing h.ascending descending).filter fun e => range.holds e.id
  change (tree.met descending range).Pairwise _ at hpairwise
  rw [hmet] at hpairwise ha
  rcases List.mem_cons.mp ha with rfl | hrest
  · exact .inl rfl
  · exact .inr (List.rel_of_pairwise_cons hpairwise hrest)

theorem met_eq_filter {part : KeyRange} {p : Entry → Bool}
    (h : ∀ e ∈ tree.toList, part.holds e.id = (range.holds e.id && p e)) :
    tree.met descending part = (tree.met descending range).filter p := by
  rw [met, met, List.filter_filter]
  apply List.filter_congr
  intro e he
  rw [h e (mem_listing.mp he), Bool.and_comm]

/-- Splitting off the group of the first entry parts what is met of a range. -/
theorem met_splitGroup (level : GroupLevel) (h : tree.WellFormed r)
    (hmet : tree.met descending range = first :: rest) :
    let split := tree.splitGroup range (level.label first.id.key) level descending
    tree.met descending split.1 = (tree.met descending range).filter (sameGroup level first) ∧
      tree.met descending split.2
        = (tree.met descending range).filter (fun e => !sameGroup level first e) := by
  obtain ⟨hmem, hfirst⟩ := mem_of_met_eq_cons hmet
  have hend : metBefore descending (groupEnd level descending first) first = true := by
    rw [metBefore_groupEnd level (.inl rfl), sameGroup, decide_eq_true_iff]
  have hsame {e : Entry} (he : e ∈ tree.toList) (hholds : range.holds e.id = true) :
      metBefore descending (groupEnd level descending first) e = sameGroup level first e :=
    metBefore_groupEnd level
      (precedes_of_met_eq_cons h hmet (mem_met.mpr ⟨he, hholds⟩))
  constructor
  · apply met_eq_filter
    intro e he
    rw [(holds_splitGroup h he hfirst hend).1]
    cases hholds : range.holds e.id with
    | false => rfl
    | true => rw [hsame he hholds]
  · apply met_eq_filter
    intro e he
    rw [(holds_splitGroup h he hfirst hend).2]
    cases hholds : range.holds e.id with
    | false => rfl
    | true => rw [hsame he hholds]

end Split

/-! ## Runs -/

section Runs

variable {r : Reducer} {tree : Tree} {level : GroupLevel} {range : KeyRange} {descending : Bool}
  {first : Entry} {rest : List Entry}

/-- The maximal runs of entries of one group in the direction of travel. -/
def runs (tree : Tree) (level : GroupLevel) (descending : Bool) (range : KeyRange) :
    List (List Entry) :=
  (tree.met descending range).splitBy (sameGroup level)

theorem flatten_runs (level : GroupLevel) :
    (tree.runs level descending range).flatten = tree.met descending range :=
  List.flatten_splitBy ..

theorem runs_eq_nil_iff (level : GroupLevel) :
    tree.runs level descending range = [] ↔ tree.met descending range = [] :=
  List.splitBy_eq_nil

theorem length_runs_le (level : GroupLevel) :
    (tree.runs level descending range).length ≤ (tree.met descending range).length := by
  rw [← flatten_runs level, ← List.flatMap_id]
  exact card_le_flatMap fun run hrun => List.length_pos_of_ne_nil (List.ne_nil_of_mem_splitBy hrun)

/-- The group of the first entry is the first run, and the runs of the rest follow. -/
theorem runs_of_cons (level : GroupLevel) (h : tree.WellFormed r)
    (hmet : tree.met descending range = first :: rest) :
    let split := tree.splitGroup range (level.label first.id.key) level descending
    tree.runs level descending range
      = tree.met descending split.1 :: tree.runs level descending split.2 := by
  intro split
  obtain ⟨hgroup, hothers⟩ : tree.met descending split.1 = _ ∧ tree.met descending split.2 = _ :=
    met_splitGroup level h hmet
  obtain ⟨hmem, hholds⟩ := mem_of_met_eq_cons hmet
  have hpairwise : (tree.met descending range).Pairwise
      fun a b => sameGroup level first b = true → sameGroup level first a = true := by
    have hprecedes := (pairwise_listing h.ascending descending).filter fun e => range.holds e.id
    refine List.Pairwise.imp_of_mem (fun {a b} ha hb hab hsame => ?_) hprecedes
    rw [← metBefore_groupEnd level (precedes_of_met_eq_cons h hmet hb)] at hsame
    rw [← metBefore_groupEnd level (precedes_of_met_eq_cons h hmet ha)]
    exact metBefore_of_precedes hab hsame
  have hlabel {e : Entry} (he : e ∈ tree.met descending split.1) :
      level.label e.id.key = level.label first.id.key := by
    rw [hgroup, List.mem_filter] at he
    exact of_decide_eq_true he.2
  have hrun : (tree.met descending split.1).splitBy (sameGroup level)
      = [tree.met descending split.1] := by
    apply List.splitBy_of_isChain
    · apply List.ne_nil_of_mem
      rw [hgroup, List.mem_filter]
      exact ⟨mem_met.mpr ⟨hmem, hholds⟩, decide_eq_true rfl⟩
    · refine List.Pairwise.isChain (List.pairwise_of_forall_mem_list fun a ha b hb => ?_)
      exact decide_eq_true ((hlabel hb).trans (hlabel ha).symm)
  have hparts := filter_append_filter_not hpairwise
  rw [← hgroup, ← hothers] at hparts
  rw [runs, runs, ← hparts, List.splitBy_append, hrun]
  · rfl
  · intro a ha b hb
    have hother := List.mem_of_mem_head? hb
    rw [hothers, List.mem_filter, Bool.not_eq_true'] at hother
    have hne := of_decide_eq_false hother.2
    apply decide_eq_false
    rw [hlabel (List.mem_of_mem_getLast? ha)]
    exact hne

/-- The label and the number of the entries of a run. -/
def countedRun (level : GroupLevel) (run : List Entry) : EncodedKey × Aggregate :=
  ((run.head?.map fun e => level.label e.id.key).getD default, .count run.length)

end Runs

end ViewIndex.Tree
