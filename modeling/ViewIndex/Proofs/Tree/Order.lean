import Mathlib.Data.List.Nodup
import ViewIndex.Tree.Basic

/-!
# The order of entries

Entries are compared by their identities alone. A list of entries is `Ascending` if each lies before
all that follow; then an identity cuts it into the entries `below` and `above` it, and at most one
between them.
-/

namespace ViewIndex

instance : Std.TransOrd EncodedKey := inferInstanceAs (Std.TransCmp (compareOn EncodedKey.bytes))

instance : Std.LawfulEqOrd EncodedKey where
  eq_of_compare h := congrArg EncodedKey.mk (Std.LawfulEqCmp.eq_of_compare h)

instance : Std.TransOrd EntryId :=
  inferInstanceAs (Std.TransCmp (compareLex (compareOn EntryId.key)
    (compareLex (compareOn EntryId.docId) (compareOn EntryId.ordinal))))

instance : Std.LawfulEqOrd EntryId where
  eq_of_compare {a b} h := by
    obtain ⟨hkey, hrest⟩ := Ordering.then_eq_eq.mp h
    obtain ⟨hdoc, hordinal⟩ := Ordering.then_eq_eq.mp hrest
    obtain ⟨key, docId, ordinal⟩ := a
    simp only [Std.LawfulEqCmp.compare_eq_iff_eq] at hkey hdoc hordinal
    simp [hkey, hdoc, hordinal]

/-- Every entry lies before those that follow it. -/
def Ascending (entries : List Entry) : Prop :=
  entries.Pairwise fun a b => compare a.id b.id = .lt

/-- The entries before an identity. -/
def below (id : EntryId) (entries : List Entry) : List Entry :=
  entries.filter fun entry => (compare entry.id id).isLT

/-- The entries behind an identity. -/
def above (id : EntryId) (entries : List Entry) : List Entry :=
  entries.filter fun entry => (compare entry.id id).isGT

theorem ascending_nil : Ascending [] := List.Pairwise.nil

theorem ascending_append_cons {left right : List Entry} {entry : Entry} :
    Ascending (left ++ entry :: right) ↔
      Ascending left ∧ Ascending right ∧ (∀ a ∈ left, compare a.id entry.id = .lt) ∧
        ∀ b ∈ right, compare entry.id b.id = .lt := by
  unfold Ascending
  rw [List.pairwise_append, List.pairwise_cons]
  constructor
  · rintro ⟨hleft, ⟨hright, hrest⟩, hcross⟩
    exact ⟨hleft, hrest, fun a ha => hcross a ha entry List.mem_cons_self, hright⟩
  · rintro ⟨hleft, hrest, hbelow, hright⟩
    refine ⟨hleft, ⟨hright, hrest⟩, fun a ha b hb => ?_⟩
    rcases List.mem_cons.mp hb with rfl | hb
    · exact hbelow a ha
    · exact Std.TransCmp.lt_trans (hbelow a ha) (hright b hb)

theorem Ascending.filter {entries : List Entry} (h : Ascending entries) (p : Entry → Bool) :
    Ascending (entries.filter p) :=
  List.Pairwise.filter p h

theorem Ascending.nodup_ids {entries : List Entry} (h : Ascending entries) :
    (entries.map Entry.id).Nodup := by
  rw [List.Nodup, List.pairwise_map]
  refine h.imp fun {a b} hlt heq => ?_
  rw [heq, Std.ReflOrd.compare_self] at hlt
  cases hlt

theorem Ascending.nodup {entries : List Entry} (h : Ascending entries) : entries.Nodup :=
  h.nodup_ids.of_map Entry.id

/-- Ascending lists with the same members are the same. -/
theorem Ascending.ext {a b : List Entry} (ha : Ascending a) (hb : Ascending b)
    (hmem : ∀ e, e ∈ a ↔ e ∈ b) : a = b := by
  have hperm : a.Perm b := (List.perm_ext_iff_of_nodup ha.nodup hb.nodup).mpr hmem
  refine hperm.eq_of_pairwise (fun x y _ _ hxy hyx => ?_) ha hb
  rw [Std.OrientedCmp.gt_of_lt hyx] at hxy
  cases hxy

/-- An entry of an ascending list is known by its identity. -/
theorem Ascending.eq_of_id {entries : List Entry} (h : Ascending entries) {a b : Entry}
    (ha : a ∈ entries) (hb : b ∈ entries) (hid : a.id = b.id) : a = b :=
  List.inj_on_of_nodup_map h.nodup_ids ha hb hid

@[simp]
theorem below_append (id : EntryId) (a b : List Entry) :
    below id (a ++ b) = below id a ++ below id b :=
  List.filter_append a b

@[simp]
theorem above_append (id : EntryId) (a b : List Entry) :
    above id (a ++ b) = above id a ++ above id b :=
  List.filter_append a b

theorem below_of_lt {id : EntryId} {entries : List Entry}
    (h : ∀ a ∈ entries, compare a.id id = .lt) : below id entries = entries :=
  List.filter_eq_self.mpr fun a ha => by rw [h a ha]; rfl

theorem above_of_lt {id : EntryId} {entries : List Entry}
    (h : ∀ a ∈ entries, compare a.id id = .lt) : above id entries = [] :=
  List.filter_eq_nil_iff.mpr fun a ha => by rw [h a ha]; decide

theorem below_of_gt {id : EntryId} {entries : List Entry}
    (h : ∀ b ∈ entries, compare id b.id = .lt) : below id entries = [] :=
  List.filter_eq_nil_iff.mpr fun b hb => by rw [Std.OrientedCmp.gt_of_lt (h b hb)]; decide

theorem above_of_gt {id : EntryId} {entries : List Entry}
    (h : ∀ b ∈ entries, compare id b.id = .lt) : above id entries = entries :=
  List.filter_eq_self.mpr fun b hb => by rw [Std.OrientedCmp.gt_of_lt (h b hb)]; rfl

/-- The entries on either side of an identity are those with another one. -/
theorem mem_sides {id : EntryId} {entries : List Entry} {e : Entry} :
    e ∈ below id entries ∨ e ∈ above id entries ↔ e ∈ entries ∧ e.id ≠ id := by
  rw [below, above, List.mem_filter, List.mem_filter, ← and_or_left, and_congr_right_iff]
  intro _
  have heq : compare e.id id = .eq ↔ e.id = id := Std.LawfulEqCmp.compare_eq_iff_eq
  rw [Ne, ← heq]
  cases compare e.id id <;> decide

/-- If no entry has the identity, all lie on one of its sides. -/
theorem below_append_above {id : EntryId} {entries : List Entry} (h : Ascending entries)
    (habsent : ∀ e ∈ entries, e.id ≠ id) : below id entries ++ above id entries = entries := by
  induction entries with
  | nil => rfl
  | cons entry rest ih =>
      obtain ⟨hfirst, hrest⟩ := List.pairwise_cons.mp h
      cases hcmp : compare entry.id id with
      | lt =>
          have hkeep : below id (entry :: rest) = entry :: below id rest :=
            List.filter_cons_of_pos (by simp [hcmp])
          have hdrop : above id (entry :: rest) = above id rest :=
            List.filter_cons_of_neg (by simp [hcmp])
          rw [hkeep, hdrop, List.cons_append]
          exact congrArg (entry :: ·)
            (ih hrest fun e he => habsent e (List.mem_cons_of_mem _ he))
      | gt =>
          have hbehind : ∀ b ∈ entry :: rest, compare id b.id = .lt := by
            have hlt := Std.OrientedCmp.lt_of_gt hcmp
            intro b hb
            rcases List.mem_cons.mp hb with rfl | hb
            · exact hlt
            · exact Std.TransCmp.lt_trans hlt (hfirst b hb)
          rw [below_of_gt hbehind, above_of_gt hbehind, List.nil_append]
      | eq =>
          exact absurd (Std.LawfulEqCmp.eq_of_compare hcmp) (habsent entry List.mem_cons_self)

/-- An entry between the entries on both sides of its identity is in order. -/
theorem ascending_sides_cons {entries : List Entry} (new : Entry) (h : Ascending entries) :
    Ascending (below new.id entries ++ new :: above new.id entries) := by
  refine ascending_append_cons.mpr ⟨h.filter _, h.filter _, fun a ha => ?_, fun b hb => ?_⟩
  · simpa [below, Ordering.isLT_iff_eq_lt] using (List.mem_filter.mp ha).2
  · apply Std.OrientedCmp.lt_of_gt
    simpa [above, Ordering.isGT_iff_eq_gt] using (List.mem_filter.mp hb).2

/-- Without whatever has an identity, the entries stay in order. -/
theorem ascending_sides {entries : List Entry} (id : EntryId) (h : Ascending entries) :
    Ascending (below id entries ++ above id entries) := by
  have hput := ascending_sides_cons ⟨id, default⟩ h
  exact hput.sublist ((List.sublist_cons_self _ _).append_left _)

end ViewIndex
