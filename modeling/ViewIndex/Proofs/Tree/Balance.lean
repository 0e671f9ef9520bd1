import ViewIndex.Proofs.Tree.Order

/-!
# Balanced trees

A tree is `Sound` if the bookkeeping of every node follows from its subtrees and the heights of
these differ by at most one. Rotations keep the entries in order, and they turn two sound trees
whose heights differ by at most two into one sound tree that is hardly higher.
-/

namespace ViewIndex.Tree

variable {r : Reducer}

/-- Height, count and aggregate of every node are those of its subtrees, and the heights of these
differ by at most one. -/
def Sound (r : Reducer) : Tree → Prop
  | nil => True
  | node entry left right height len agg =>
      left.Sound r ∧ right.Sound r ∧ left.height ≤ right.height + 1 ∧
        right.height ≤ left.height + 1 ∧ height = 1 + max left.height right.height ∧
        len = 1 + left.len + right.len ∧ agg = aggregateOf r entry left right

/-- The entries are in order, and the tree is sound. -/
structure WellFormed (r : Reducer) (tree : Tree) : Prop where
  ascending : Ascending tree.toList
  sound : tree.Sound r

theorem sound_nil : nil.Sound r := trivial

theorem sound_join {entry : Entry} {left right : Tree} (hl : left.Sound r) (hr : right.Sound r)
    (hleft : left.height ≤ right.height + 1) (hright : right.height ≤ left.height + 1) :
    (join r entry left right).Sound r :=
  ⟨hl, hr, hleft, hright, rfl, rfl, rfl⟩

@[simp]
theorem height_node (entry : Entry) (left right : Tree) (height len : Nat) (agg : Aggregate) :
    (node entry left right height len agg).height = height := rfl

@[simp]
theorem height_join (entry : Entry) (left right : Tree) :
    (join r entry left right).height = 1 + max left.height right.height := rfl

@[simp]
theorem toList_join (entry : Entry) (left right : Tree) :
    (join r entry left right).toList = left.toList ++ entry :: right.toList := rfl

theorem Sound.len_eq {tree : Tree} (h : tree.Sound r) : tree.len = tree.toList.length := by
  induction tree with
  | nil => rfl
  | node entry left right height len agg ihleft ihright =>
      obtain ⟨hl, hr, -, -, -, hlen, -⟩ := h
      rw [toList, List.length_append, List.length_cons, ← ihleft hl, ← ihright hr]
      rw [Tree.len, hlen]
      omega

/-! ## Rotations -/

@[simp]
theorem toList_rotateRight (entry : Entry) (left right : Tree) :
    (rotateRight r entry left right).toList = left.toList ++ entry :: right.toList := by
  unfold rotateRight
  split
  · split
    · simp [toList]
    · split <;> simp [toList]
  · rfl

@[simp]
theorem toList_rotateLeft (entry : Entry) (left right : Tree) :
    (rotateLeft r entry left right).toList = left.toList ++ entry :: right.toList := by
  unfold rotateLeft
  split
  · split
    · simp [toList]
    · split <;> simp [toList]
  · rfl

@[simp]
theorem toList_balance (entry : Entry) (left right : Tree) :
    (balance r entry left right).toList = left.toList ++ entry :: right.toList := by
  unfold balance
  split
  · simp
  · split <;> simp

/-- What balancing gives: a sound tree, as high as the higher side or one higher, and exactly one
higher if there was nothing to do. -/
structure Balanced (r : Reducer) (left right balanced : Tree) : Prop where
  sound : balanced.Sound r
  le_height : max left.height right.height ≤ balanced.height
  height_le : balanced.height ≤ 1 + max left.height right.height
  height_eq : left.height ≤ right.height + 1 → right.height ≤ left.height + 1 →
    balanced.height = 1 + max left.height right.height

theorem balanced_rotateRight {entry : Entry} {left right : Tree} (hl : left.Sound r)
    (hr : right.Sound r) (hheight : left.height = right.height + 2) :
    Balanced r left right (rotateRight r entry left right) := by
  unfold rotateRight
  split
  next leftEntry outer inner height len agg =>
    obtain ⟨houter, hinner, hout, hin, hleft, -, -⟩ := hl
    have hnode := height_node leftEntry outer inner height len agg
    split
    next hle =>
      have hsub := height_join (r := r) entry inner right
      have htop := height_join (r := r) leftEntry outer (join r entry inner right)
      exact ⟨sound_join houter (sound_join hinner hr (by omega) (by omega)) (by omega) (by omega),
        by omega, by omega, by omega⟩
    next hlt =>
      split
      next innerEntry a b height' len' agg' =>
        obtain ⟨ha, hb, hab, hba, hinner', -, -⟩ := hinner
        have hnode' := height_node innerEntry a b height' len' agg'
        have hsubl := height_join (r := r) leftEntry outer a
        have hsubr := height_join (r := r) entry b right
        have htop := height_join (r := r) innerEntry (join r leftEntry outer a)
          (join r entry b right)
        exact ⟨sound_join (sound_join houter ha (by omega) (by omega))
          (sound_join hb hr (by omega) (by omega)) (by omega) (by omega),
          by omega, by omega, by omega⟩
      next => exact absurd (Nat.zero_le _) hlt
  next => exact absurd hheight (by simp [Tree.height])

theorem balanced_rotateLeft {entry : Entry} {left right : Tree} (hl : left.Sound r)
    (hr : right.Sound r) (hheight : right.height = left.height + 2) :
    Balanced r left right (rotateLeft r entry left right) := by
  unfold rotateLeft
  split
  next rightEntry inner outer height len agg =>
    obtain ⟨hinner, houter, hin, hout, hright, -, -⟩ := hr
    have hnode := height_node rightEntry inner outer height len agg
    split
    next hle =>
      have hsub := height_join (r := r) entry left inner
      have htop := height_join (r := r) rightEntry (join r entry left inner) outer
      exact ⟨sound_join (sound_join hl hinner (by omega) (by omega)) houter (by omega) (by omega),
        by omega, by omega, by omega⟩
    next hlt =>
      split
      next innerEntry a b height' len' agg' =>
        obtain ⟨ha, hb, hab, hba, hinner', -, -⟩ := hinner
        have hnode' := height_node innerEntry a b height' len' agg'
        have hsubl := height_join (r := r) entry left a
        have hsubr := height_join (r := r) rightEntry b outer
        have htop := height_join (r := r) innerEntry (join r entry left a)
          (join r rightEntry b outer)
        exact ⟨sound_join (sound_join hl ha (by omega) (by omega))
          (sound_join hb houter (by omega) (by omega)) (by omega) (by omega),
          by omega, by omega, by omega⟩
      next => exact absurd (Nat.zero_le _) hlt
  next => exact absurd hheight (by simp [Tree.height])

theorem balanced_balance (entry : Entry) {left right : Tree} (hl : left.Sound r)
    (hr : right.Sound r) (hleft : left.height ≤ right.height + 2)
    (hright : right.height ≤ left.height + 2) :
    Balanced r left right (balance r entry left right) := by
  unfold balance
  split
  · exact balanced_rotateRight hl hr (by omega)
  · split
    · exact balanced_rotateLeft hl hr (by omega)
    · refine ⟨sound_join hl hr (by omega) (by omega), ?_, ?_, fun _ _ => rfl⟩
      · exact Nat.le_trans (Nat.le_add_left _ 1) (Nat.le_of_eq (height_join entry left right).symm)
      · exact Nat.le_of_eq (height_join entry left right)

end ViewIndex.Tree
