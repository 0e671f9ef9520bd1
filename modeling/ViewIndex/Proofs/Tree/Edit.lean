import ViewIndex.Proofs.Tree.Balance

/-!
# Looking up, inserting and removing

On a tree in order the three operations do to the list of entries what their names say: an entry is
put between those `below` and `above` its identity, or nothing stays between them. The heights
change by at most one, so sound trees stay sound.
-/

namespace ViewIndex.Tree

variable {r : Reducer}

/-- Among ascending entries an identity goes to one side of any of them. -/
theorem sides_of_lt {left right : List Entry} {entry : Entry} {id : EntryId}
    (h : Ascending (left ++ entry :: right)) (hlt : compare id entry.id = .lt) :
    below id (left ++ entry :: right) = below id left ∧
      above id (left ++ entry :: right) = above id left ++ entry :: right := by
  obtain ⟨-, -, -, hright⟩ := ascending_append_cons.mp h
  have hrest : ∀ b ∈ entry :: right, compare id b.id = .lt := by
    intro b hb
    rcases List.mem_cons.mp hb with rfl | hb
    · exact hlt
    · exact Std.TransCmp.lt_trans hlt (hright b hb)
  rw [below_append, above_append, below_of_gt hrest, above_of_gt hrest, List.append_nil]
  exact ⟨rfl, rfl⟩

theorem sides_of_gt {left right : List Entry} {entry : Entry} {id : EntryId}
    (h : Ascending (left ++ entry :: right)) (hgt : compare id entry.id = .gt) :
    below id (left ++ entry :: right) = left ++ entry :: below id right ∧
      above id (left ++ entry :: right) = above id right := by
  obtain ⟨-, -, hleft, -⟩ := ascending_append_cons.mp h
  have hlt : compare entry.id id = .lt := Std.OrientedCmp.lt_of_gt hgt
  have hrest : ∀ a ∈ left ++ [entry], compare a.id id = .lt := by
    intro a ha
    rcases List.mem_append.mp ha with ha | ha
    · exact Std.TransCmp.lt_trans (hleft a ha) hlt
    · rw [List.mem_singleton.mp ha]; exact hlt
  rw [List.append_cons, below_append, above_append, below_of_lt hrest, above_of_lt hrest,
    List.append_assoc, List.singleton_append, List.nil_append]
  exact ⟨rfl, rfl⟩

theorem sides_of_eq {left right : List Entry} {entry : Entry} {id : EntryId}
    (h : Ascending (left ++ entry :: right)) (heq : compare id entry.id = .eq) :
    below id (left ++ entry :: right) = left ∧ above id (left ++ entry :: right) = right := by
  obtain rfl : id = entry.id := Std.LawfulEqCmp.eq_of_compare heq
  obtain ⟨-, -, hleft, hright⟩ := ascending_append_cons.mp h
  rw [below_append, above_append, below_of_lt hleft, above_of_lt hleft, below, above,
    List.filter_cons_of_neg (by simp), List.filter_cons_of_neg (by simp)]
  exact ⟨by rw [show List.filter _ right = [] from below_of_gt hright, List.append_nil],
    above_of_gt hright⟩

/-! ## Looking up -/

/-- In a tree in order, looking up an identity finds the entry that has it. -/
theorem get?_eq_some_iff {tree : Tree} (h : Ascending tree.toList) (id : EntryId) (found : Entry) :
    tree.get? id = some found ↔ found ∈ tree.toList ∧ found.id = id := by
  induction tree with
  | nil => simp [get?, toList]
  | node entry left right height len agg ihleft ihright =>
      obtain ⟨hleft, hright, hbefore, hbehind⟩ := ascending_append_cons.mp h
      rw [toList, get?, List.mem_append, List.mem_cons]
      cases hcmp : compare id entry.id with
      | lt =>
          -- Nothing behind the root has a smaller identity.
          refine (ihleft hleft).trans ⟨fun hfound => ⟨.inl hfound.1, hfound.2⟩, ?_⟩
          rintro ⟨hmem | rfl | hmem, rfl⟩
          · exact ⟨hmem, rfl⟩
          · simp at hcmp
          · rw [Std.OrientedCmp.gt_of_lt (hbehind found hmem)] at hcmp
            cases hcmp
      | gt =>
          refine (ihright hright).trans ⟨fun hfound => ⟨.inr (.inr hfound.1), hfound.2⟩, ?_⟩
          rintro ⟨hmem | rfl | hmem, rfl⟩
          · rw [hbefore found hmem] at hcmp
            cases hcmp
          · simp at hcmp
          · exact ⟨hmem, rfl⟩
      | eq =>
          obtain rfl : id = entry.id := Std.LawfulEqCmp.eq_of_compare hcmp
          constructor
          · intro hfound
            obtain rfl : entry = found := Option.some.inj hfound
            exact ⟨.inr (.inl rfl), rfl⟩
          · rintro ⟨hmem, hid⟩
            have hentry : entry ∈ left.toList ++ entry :: right.toList := by simp
            exact congrArg some (h.eq_of_id hentry (by simpa [toList] using hmem) hid.symm)

theorem id_ne_of_get?_eq_none {tree : Tree} {id : EntryId} (h : Ascending tree.toList)
    (hnone : tree.get? id = none) : ∀ e ∈ tree.toList, e.id ≠ id := by
  intro e he hid
  rw [(get?_eq_some_iff h id e).mpr ⟨he, hid⟩] at hnone
  cases hnone

/-- Looking up an identity is a search through the list of entries. -/
theorem get?_eq_find? {tree : Tree} (h : Ascending tree.toList) (id : EntryId) :
    tree.get? id = tree.toList.find? fun entry => entry.id = id := by
  cases hget : tree.get? id with
  | none =>
      symm
      rw [List.find?_eq_none]
      intro entry hentry
      simpa using id_ne_of_get?_eq_none h hget entry hentry
  | some found =>
      obtain ⟨hfound, hid⟩ := (get?_eq_some_iff h id found).mp hget
      cases hfind : tree.toList.find? (fun entry => entry.id = id) with
      | none =>
          have hne := List.find?_eq_none.mp hfind found hfound
          exact absurd (decide_eq_true hid) hne
      | some other =>
          have hother : other.id = id := by simpa using List.find?_some hfind
          rw [h.eq_of_id hfound (List.mem_of_find?_eq_some hfind) (hid.trans hother.symm)]

/-! ## Inserting -/

section Insert

variable {new entry : Entry} {left right : Tree} {height len : Nat} {agg : Aggregate}

theorem insert_of_lt (h : compare new.id entry.id = .lt) :
    insert r new (node entry left right height len agg)
      = (balance r entry (insert r new left).1 right, (insert r new left).2) := by
  rw [insert, h]

theorem insert_of_gt (h : compare new.id entry.id = .gt) :
    insert r new (node entry left right height len agg)
      = (balance r entry left (insert r new right).1, (insert r new right).2) := by
  rw [insert, h]

theorem insert_of_eq (h : compare new.id entry.id = .eq) :
    insert r new (node entry left right height len agg) = (join r new left right, some entry) := by
  rw [insert, h]

end Insert

/-- Inserting returns the entry that has the identity already. -/
theorem insert_snd (new : Entry) (tree : Tree) : (insert r new tree).2 = tree.get? new.id := by
  induction tree with
  | nil => rfl
  | node entry left right height len agg ihleft ihright =>
      rw [get?]
      cases hcmp : compare new.id entry.id with
      | lt => rw [insert_of_lt hcmp]; exact ihleft
      | gt => rw [insert_of_gt hcmp]; exact ihright
      | eq => rw [insert_of_eq hcmp]

theorem toList_insert {tree : Tree} (new : Entry) (h : Ascending tree.toList) :
    (insert r new tree).1.toList = below new.id tree.toList ++ new :: above new.id tree.toList := by
  induction tree with
  | nil => rfl
  | node entry left right height len agg ihleft ihright =>
      obtain ⟨hleft, hright, -, -⟩ := ascending_append_cons.mp h
      rw [toList]
      cases hcmp : compare new.id entry.id with
      | lt =>
          obtain ⟨hbelow, habove⟩ := sides_of_lt h hcmp
          rw [insert_of_lt hcmp, toList_balance, ihleft hleft, hbelow, habove, List.append_assoc,
            List.cons_append]
      | gt =>
          obtain ⟨hbelow, habove⟩ := sides_of_gt h hcmp
          rw [insert_of_gt hcmp, toList_balance, ihright hright, hbelow, habove, List.append_assoc,
            List.cons_append]
      | eq =>
          obtain ⟨hbelow, habove⟩ := sides_of_eq h hcmp
          rw [insert_of_eq hcmp, toList_join, hbelow, habove]

/-- After inserting, the new entry has its identity to itself. -/
theorem mem_insert {tree : Tree} (new : Entry) (h : Ascending tree.toList) (e : Entry) :
    e ∈ (insert r new tree).1.toList ↔ e = new ∨ e ∈ tree.toList ∧ e.id ≠ new.id := by
  rw [toList_insert new h, List.mem_append, List.mem_cons, or_left_comm, mem_sides]

/-- Inserting keeps a tree sound and makes it at most one higher. -/
theorem sound_insert {tree : Tree} (new : Entry) (h : tree.Sound r) :
    (insert r new tree).1.Sound r ∧ tree.height ≤ (insert r new tree).1.height ∧
      (insert r new tree).1.height ≤ tree.height + 1 := by
  induction tree with
  | nil =>
      exact ⟨sound_join sound_nil sound_nil (Nat.zero_le _) (Nat.zero_le _), Nat.zero_le _,
        Nat.le_refl 1⟩
  | node entry left right height len agg ihleft ihright =>
      obtain ⟨hleft, hright, hlr, hrl, hheight, hlen, hagg⟩ := h
      rw [height_node]
      cases hcmp : compare new.id entry.id with
      | lt =>
          -- The left tree may have become two higher than the right one, no more.
          obtain ⟨hsound, hge, hle⟩ := ihleft hleft
          obtain ⟨hbalanced, hmin, hmax, heq⟩ :=
            balanced_balance entry hsound hright (by omega) (by omega)
          rw [insert_of_lt hcmp]
          dsimp only
          exact ⟨hbalanced, by omega, by omega⟩
      | gt =>
          obtain ⟨hsound, hge, hle⟩ := ihright hright
          obtain ⟨hbalanced, hmin, hmax, heq⟩ :=
            balanced_balance entry hleft hsound (by omega) (by omega)
          rw [insert_of_gt hcmp]
          dsimp only
          exact ⟨hbalanced, by omega, by omega⟩
      | eq =>
          rw [insert_of_eq hcmp, height_join]
          exact ⟨sound_join hleft hright hlr hrl, by omega, by omega⟩

theorem WellFormed.insert {tree : Tree} (h : tree.WellFormed r) (new : Entry) :
    (insert r new tree).1.WellFormed r where
  ascending := by rw [toList_insert new h.ascending]; exact ascending_sides_cons new h.ascending
  sound := (sound_insert new h.sound).1

/-! ## Removing -/

/-- A tree after something was taken out of it: still sound, and at most one lower. -/
structure Lowered (r : Reducer) (before after : Tree) : Prop where
  sound : after.Sound r
  height_le : after.height ≤ before.height
  le_height : before.height ≤ after.height + 1

theorem removeFirst_eq_none {tree : Tree} (h : removeFirst r tree = none) : tree = nil := by
  cases tree with
  | nil => rfl
  | node entry left right height len agg =>
      rw [removeFirst] at h
      split at h <;> cases h

theorem toList_removeFirst {tree rest : Tree} {first : Entry}
    (h : removeFirst r tree = some (first, rest)) : tree.toList = first :: rest.toList := by
  induction tree generalizing first rest with
  | nil => cases h
  | node entry left right height len agg ihleft _ =>
      rw [removeFirst] at h
      split at h
      next hleft =>
        cases h
        rw [toList, toList_balance, ihleft hleft, List.cons_append]
      next hleft =>
        cases h
        rw [removeFirst_eq_none hleft]
        rfl

theorem lowered_removeFirst {tree rest : Tree} {first : Entry} (hsound : tree.Sound r)
    (h : removeFirst r tree = some (first, rest)) : Lowered r tree rest := by
  induction tree generalizing first rest with
  | nil => cases h
  | node entry left right height len agg ihleft _ =>
      obtain ⟨hleft, hright, hlr, hrl, hheight, -, -⟩ := hsound
      rw [removeFirst] at h
      split at h
      next hfirst =>
        cases h
        obtain ⟨hlow, hle, hge⟩ := ihleft hleft hfirst
        obtain ⟨hbalanced, hmin, hmax, heq⟩ :=
          balanced_balance entry hlow hright (by omega) (by omega)
        exact ⟨hbalanced, by rw [height_node]; omega, by rw [height_node]; omega⟩
      next hfirst =>
        cases h
        have hzero : left.height = 0 := by rw [removeFirst_eq_none hfirst, Tree.height]
        exact ⟨hright, by rw [height_node]; omega, by rw [height_node]; omega⟩

theorem glue_of_removeFirst {left right rest : Tree} {first : Entry} (hleft : left ≠ nil)
    (h : removeFirst r right = some (first, rest)) :
    glue r left right = balance r first left rest := by
  unfold glue
  split
  next => exact absurd rfl hleft
  next hfirst => rw [h] at hfirst; cases hfirst; rfl
  next hfirst => rw [h] at hfirst; cases hfirst

theorem glue_nil_left (right : Tree) : glue r nil right = right := rfl

theorem glue_nil_right (left : Tree) : glue r left nil = left := by
  cases left <;> rfl

theorem toList_glue (left right : Tree) :
    (glue r left right).toList = left.toList ++ right.toList := by
  by_cases hleft : left = nil
  · rw [hleft, glue_nil_left]
    rfl
  cases hfirst : removeFirst r right with
  | none => rw [removeFirst_eq_none hfirst, glue_nil_right, toList, List.append_nil]
  | some found =>
      rw [glue_of_removeFirst hleft hfirst, toList_balance, toList_removeFirst hfirst]

theorem sound_glue {left right : Tree} (hl : left.Sound r) (hr : right.Sound r)
    (hlr : left.height ≤ right.height + 1) (hrl : right.height ≤ left.height + 1) :
    (glue r left right).Sound r ∧ max left.height right.height ≤ (glue r left right).height ∧
      (glue r left right).height ≤ 1 + max left.height right.height := by
  by_cases hleft : left = nil
  · subst hleft
    rw [glue_nil_left]
    exact ⟨hr, by rw [Tree.height]; omega, by omega⟩
  cases hfirst : removeFirst r right with
  | none =>
      obtain rfl := removeFirst_eq_none hfirst
      rw [glue_nil_right, Tree.height]
      exact ⟨hl, by omega, by omega⟩
  | some found =>
      obtain ⟨first, rest⟩ := found
      obtain ⟨hlow, hle, hge⟩ := lowered_removeFirst hr hfirst
      obtain ⟨hbalanced, hmin, hmax, heq⟩ :=
        balanced_balance first hl hlow (by omega) (by omega)
      rw [glue_of_removeFirst hleft hfirst]
      exact ⟨hbalanced, by omega, by omega⟩

/-- Taking out an identity returns the entry that has it. -/
theorem remove_snd (id : EntryId) (tree : Tree) : (remove r id tree).2 = tree.get? id := by
  induction tree with
  | nil => rfl
  | node entry left right height len agg ihleft ihright =>
      rw [remove, get?]
      cases hcmp : compare id entry.id with
      | lt =>
          rw [← ihleft]
          cases remove r id left with
          | mk rest found => cases found <;> rfl
      | gt =>
          rw [← ihright]
          cases remove r id right with
          | mk rest found => cases found <;> rfl
      | eq => rfl

theorem remove_of_absent {id : EntryId} {tree : Tree} (h : tree.get? id = none) :
    (remove r id tree).1 = tree := by
  cases tree with
  | nil => rfl
  | node entry left right height len agg =>
      rw [get?] at h
      rw [remove]
      cases hcmp : compare id entry.id with
      | lt =>
          rw [hcmp] at h
          have hnone := (remove_snd (r := r) id left).trans h
          cases hremove : remove r id left with
          | mk rest found =>
              rw [hremove] at hnone
              obtain rfl : found = none := hnone
              rfl
      | gt =>
          rw [hcmp] at h
          have hnone := (remove_snd (r := r) id right).trans h
          cases hremove : remove r id right with
          | mk rest found =>
              rw [hremove] at hnone
              obtain rfl : found = none := hnone
              rfl
      | eq =>
          rw [hcmp] at h
          cases h

section Remove

variable {id : EntryId} {entry found : Entry} {left right : Tree} {height len : Nat}
  {agg : Aggregate}

theorem remove_of_lt (h : compare id entry.id = .lt) (hfound : left.get? id = some found) :
    (remove r id (node entry left right height len agg)).1
      = balance r entry (remove r id left).1 right := by
  have hsnd := (remove_snd (r := r) id left).trans hfound
  rw [remove, h]
  cases hremove : remove r id left with
  | mk rest removed =>
      rw [hremove] at hsnd
      obtain rfl : removed = some found := hsnd
      rfl

theorem remove_of_gt (h : compare id entry.id = .gt) (hfound : right.get? id = some found) :
    (remove r id (node entry left right height len agg)).1
      = balance r entry left (remove r id right).1 := by
  have hsnd := (remove_snd (r := r) id right).trans hfound
  rw [remove, h]
  cases hremove : remove r id right with
  | mk rest removed =>
      rw [hremove] at hsnd
      obtain rfl : removed = some found := hsnd
      rfl

theorem remove_of_eq (h : compare id entry.id = .eq) :
    (remove r id (node entry left right height len agg)).1 = glue r left right := by
  rw [remove, h]

end Remove

theorem toList_remove {tree : Tree} (id : EntryId) (h : Ascending tree.toList) :
    (remove r id tree).1.toList = below id tree.toList ++ above id tree.toList := by
  induction tree with
  | nil => rfl
  | node entry left right height len agg ihleft ihright =>
      cases hget : (node entry left right height len agg).get? id with
      | none =>
          -- Without such an entry the tree stays as it is.
          rw [remove_of_absent hget, below_append_above h (id_ne_of_get?_eq_none h hget)]
      | some found =>
          obtain ⟨hleft, hright, -, -⟩ := ascending_append_cons.mp h
          rw [get?] at hget
          rw [toList]
          cases hcmp : compare id entry.id with
          | lt =>
              rw [hcmp] at hget
              obtain ⟨hbelow, habove⟩ := sides_of_lt h hcmp
              rw [remove_of_lt hcmp hget, toList_balance, ihleft hleft, hbelow, habove,
                List.append_assoc]
          | gt =>
              rw [hcmp] at hget
              obtain ⟨hbelow, habove⟩ := sides_of_gt h hcmp
              rw [remove_of_gt hcmp hget, toList_balance, ihright hright, hbelow, habove,
                List.append_assoc, List.cons_append]
          | eq =>
              obtain ⟨hbelow, habove⟩ := sides_of_eq h hcmp
              rw [remove_of_eq hcmp, toList_glue, hbelow, habove]

/-- After removing, no entry has the identity, and all others are still there. -/
theorem mem_remove {tree : Tree} (id : EntryId) (h : Ascending tree.toList) (e : Entry) :
    e ∈ (remove r id tree).1.toList ↔ e ∈ tree.toList ∧ e.id ≠ id := by
  rw [toList_remove id h, List.mem_append, mem_sides]

theorem lowered_remove {tree : Tree} (id : EntryId) (h : tree.Sound r) :
    Lowered r tree (remove r id tree).1 := by
  induction tree with
  | nil => exact ⟨h, Nat.le_refl _, Nat.le_succ _⟩
  | node entry left right height len agg ihleft ihright =>
      cases hget : (node entry left right height len agg).get? id with
      | none =>
          rw [remove_of_absent hget]
          exact ⟨h, Nat.le_refl _, Nat.le_succ _⟩
      | some found =>
          obtain ⟨hleft, hright, hlr, hrl, hheight, -, -⟩ := h
          have hnode := height_node entry left right height len agg
          rw [get?] at hget
          cases hcmp : compare id entry.id with
          | lt =>
              rw [hcmp] at hget
              obtain ⟨hlow, hle, hge⟩ := ihleft hleft
              obtain ⟨hbalanced, hmin, hmax, heq⟩ :=
                balanced_balance entry hlow hright (by omega) (by omega)
              rw [remove_of_lt hcmp hget]
              exact ⟨hbalanced, by omega, by omega⟩
          | gt =>
              rw [hcmp] at hget
              obtain ⟨hlow, hle, hge⟩ := ihright hright
              obtain ⟨hbalanced, hmin, hmax, heq⟩ :=
                balanced_balance entry hleft hlow (by omega) (by omega)
              rw [remove_of_gt hcmp hget]
              exact ⟨hbalanced, by omega, by omega⟩
          | eq =>
              obtain ⟨hsound, hge, hle⟩ := sound_glue hleft hright hlr hrl
              rw [remove_of_eq hcmp]
              exact ⟨hsound, by omega, by omega⟩

theorem WellFormed.remove {tree : Tree} (h : tree.WellFormed r) (id : EntryId) :
    (remove r id tree).1.WellFormed r where
  ascending := by rw [toList_remove id h.ascending]; exact ascending_sides id h.ascending
  sound := (lowered_remove id h.sound).sound

/-- Removing is leaving out of the list what has the identity. -/
theorem toList_remove_eq_filter {tree : Tree} (id : EntryId) (h : Ascending tree.toList) :
    (remove r id tree).1.toList = tree.toList.filter fun entry => entry.id ≠ id := by
  refine Ascending.ext ?_ (h.filter _) fun e => ?_
  · rw [toList_remove id h]
    exact ascending_sides id h
  · rw [mem_remove id h, List.mem_filter, decide_eq_true_iff]

/-- On a well-formed tree the operations are those of the ordered list of its entries: inserting
puts an entry at its place, removing leaves one out, either returns what was there under the
identity, and the tree is well-formed afterwards. -/
theorem edits_of_wellFormed {tree : Tree} (h : tree.WellFormed r) :
    (∀ new : Entry,
      (tree.insert r new).1.WellFormed r ∧
      (tree.insert r new).1.toList = below new.id tree.toList ++ new :: above new.id tree.toList ∧
      (tree.insert r new).2 = tree.toList.find? fun entry => entry.id = new.id) ∧
    (∀ id : EntryId,
      (tree.remove r id).1.WellFormed r ∧
      (tree.remove r id).1.toList = (tree.toList.filter fun entry => entry.id ≠ id) ∧
      ((tree.remove r id).2 = tree.toList.find? fun entry => entry.id = id) ∧
      ((tree.remove r id).2 = none → (tree.remove r id).1 = tree)) ∧
    ∀ id : EntryId, tree.get? id = tree.toList.find? fun entry => entry.id = id := by
  refine ⟨fun new => ⟨h.insert new, toList_insert new h.ascending, ?_⟩,
    fun id => ⟨h.remove id, toList_remove_eq_filter id h.ascending, ?_, fun hnone => ?_⟩,
    get?_eq_find? h.ascending⟩
  · rw [insert_snd, get?_eq_find? h.ascending]
  · rw [remove_snd, get?_eq_find? h.ascending]
  · exact remove_of_absent ((remove_snd id tree).symm.trans hnone)

section Leaning

/-- An entry of one document, known by its place. -/
def leaningEntry (ordinal : Nat) : Entry := ⟨⟨⟨[]⟩, "a", ordinal⟩, .null⟩

/-- Two entries, the second below the first on the right. -/
def leaning : Tree :=
  node (leaningEntry 0) nil (node (leaningEntry 1) nil nil 1 1 (.count 1)) 2 2 (.count 2)

theorem wellFormed_leaning : leaning.WellFormed .count where
  ascending := by
    have hlist : leaning.toList = [leaningEntry 0, leaningEntry 1] := rfl
    rw [Ascending, hlist, List.pairwise_pair]
    decide
  sound := by
    have hleaf : Sound .count (node (leaningEntry 1) nil nil 1 1 (.count 1)) :=
      sound_join sound_nil sound_nil (Nat.zero_le _) (Nat.zero_le _)
    exact ⟨sound_nil, hleaf, by decide, by decide, rfl, rfl, rfl⟩

/-- A third entry makes the tree turn, and without its first one it is a leaf. -/
theorem edits_of_wellFormed_leaning :
    (leaning.insert .count (leaningEntry 2)).1.WellFormed .count ∧
    (leaning.insert .count (leaningEntry 2)).1.toList
      = [leaningEntry 0, leaningEntry 1, leaningEntry 2] ∧
    (leaning.insert .count (leaningEntry 1)).2 = some (leaningEntry 1) ∧
    (leaning.remove .count (leaningEntry 0).id).1.toList = [leaningEntry 1] ∧
    (leaning.remove .count (leaningEntry 0).id).2 = some (leaningEntry 0) ∧
    (leaning.remove .count (leaningEntry 2).id).1 = leaning ∧
    leaning.get? (leaningEntry 1).id = some (leaningEntry 1) := by
  obtain ⟨hinsert, hremove, hget⟩ := edits_of_wellFormed wellFormed_leaning
  exact ⟨(hinsert _).1, (hinsert _).2.1.trans (by decide), (hinsert _).2.2.trans (by decide),
    (hremove _).2.1.trans (by decide), (hremove _).2.2.1.trans (by decide),
    (hremove _).2.2.2 ((hremove _).2.2.1.trans (by decide)), (hget _).trans (by decide)⟩

end Leaning

/-! ## Batches of edits -/

theorem WellFormed.removeAll {tree : Tree} (h : tree.WellFormed r) (ids : List EntryId) :
    (ids.foldl (fun tree id => (tree.remove r id).1) tree).WellFormed r := by
  induction ids generalizing tree with
  | nil => exact h
  | cons id rest ih => exact ih (h.remove id)

theorem mem_removeAll {tree : Tree} (h : tree.WellFormed r) (ids : List EntryId) (e : Entry) :
    e ∈ (ids.foldl (fun tree id => (tree.remove r id).1) tree).toList ↔
      e ∈ tree.toList ∧ e.id ∉ ids := by
  induction ids generalizing tree with
  | nil => simp
  | cons id rest ih =>
      rw [List.foldl_cons, ih (h.remove id), mem_remove id h.ascending, List.mem_cons, not_or,
        and_assoc]

theorem WellFormed.insertAll {tree : Tree} (h : tree.WellFormed r) (entries : List Entry) :
    (entries.foldl (fun tree entry => (tree.insert r entry).1) tree).WellFormed r := by
  induction entries generalizing tree with
  | nil => exact h
  | cons entry rest ih => exact ih (h.insert entry)

theorem mem_insertAll {tree : Tree} (h : tree.WellFormed r) {entries : List Entry}
    (hdistinct : (entries.map Entry.id).Nodup) (e : Entry) :
    e ∈ (entries.foldl (fun tree entry => (tree.insert r entry).1) tree).toList ↔
      e ∈ entries ∨ e ∈ tree.toList ∧ e.id ∉ entries.map Entry.id := by
  induction entries generalizing tree with
  | nil => simp
  | cons entry rest ih =>
      obtain ⟨hfirst, hrest⟩ := List.nodup_cons.mp hdistinct
      rw [List.foldl_cons, ih (h.insert entry) hrest, mem_insert entry h.ascending, List.mem_cons,
        List.map_cons, List.mem_cons, not_or]
      constructor
      · rintro (he | ⟨rfl | ⟨he, hne⟩, hnot⟩)
        · exact .inl (.inr he)
        · exact .inl (.inl rfl)
        · exact .inr ⟨he, hne, hnot⟩
      · rintro ((rfl | he) | ⟨he, hne, hnot⟩)
        · exact .inr ⟨.inl rfl, hfirst⟩
        · exact .inl he
        · exact .inr ⟨.inr ⟨he, hne⟩, hnot⟩

theorem WellFormed.applyDelta {tree : Tree} (h : tree.WellFormed r) (removed : List EntryId)
    (inserted : List Entry) : (tree.applyDelta r removed inserted).WellFormed r :=
  (h.removeAll removed).insertAll inserted

/-- What removing some entries and then inserting others with identities of their own leaves. -/
theorem mem_applyDelta {tree : Tree} (h : tree.WellFormed r) (removed : List EntryId)
    {inserted : List Entry} (hdistinct : (inserted.map Entry.id).Nodup) (e : Entry) :
    e ∈ (tree.applyDelta r removed inserted).toList ↔
      e ∈ inserted ∨ (e ∈ tree.toList ∧ e.id ∉ removed) ∧ e.id ∉ inserted.map Entry.id := by
  rw [applyDelta, mem_insertAll (h.removeAll removed) hdistinct, mem_removeAll h]

end ViewIndex.Tree
