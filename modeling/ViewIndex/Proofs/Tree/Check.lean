import ViewIndex.Proofs.Tree.Reducing
import ViewIndex.Tree.Check

/-!
# What the check of a tree finds

The check passes exactly if the entries are in order and every node carries the height, the count
and the aggregate of its subtree. What the nodes of a tree carry is not trusted for that: heights
and entries are counted, and aggregates are computed anew from the entries. Counts and reducers on
JSON are exact: their aggregates are compared by equality. Sums of floating-point numbers are
compared up to rounding, and a NaN does not even agree with itself.
-/

namespace ViewIndex

/-! ## Equality of values -/

namespace Json

/-- A number with a negative zero made positive. -/
def Number.unsigned : Number → Number
  | .int i => .int i
  | .real x => .real x.unsignedZero

mutual

/-- A value with negative zeros made positive, at any depth. -/
def unsigned : Json → Json
  | .number n => .number n.unsigned
  | .array items => .array (unsignedItems items)
  | .object members => .object (unsignedMembers members)
  | value => value

def unsignedItems : List Json → List Json
  | [] => []
  | item :: rest => item.unsigned :: unsignedItems rest

def unsignedMembers : List (String × Json) → List (String × Json)
  | [] => []
  | (name, value) :: rest => (name, value.unsigned) :: unsignedMembers rest

end

theorem Number.same_iff (m n : Number) : m.same n = true ↔ m.unsigned = n.unsigned := by
  cases m <;> cases n <;> simp [same, unsigned]

mutual

/-- Values are the same if they are equal up to the sign of zeros. -/
theorem same_iff (a b : Json) : a.same b = true ↔ a.unsigned = b.unsigned := by
  cases a <;> cases b <;>
    simp [same, unsigned, Number.same_iff, sameItems_iff, sameMembers_iff]

theorem sameItems_iff (a b : List Json) :
    sameItems a b = true ↔ unsignedItems a = unsignedItems b := by
  cases a <;> cases b <;> simp [sameItems, unsignedItems, same_iff, sameItems_iff]

theorem sameMembers_iff (a b : List (String × Json)) :
    sameMembers a b = true ↔ unsignedMembers a = unsignedMembers b := by
  cases a <;> cases b <;>
    simp [sameMembers, unsignedMembers, same_iff, sameMembers_iff]

end

end Json

/-- An aggregate with the negative zeros of a JSON value made positive. -/
def Aggregate.unsigned : Aggregate → Aggregate
  | .custom value => .custom value.unsigned
  | agg => agg

namespace Reducer

/-- Whether aggregates are compared by equality. -/
def IsExact : Reducer → Prop
  | .count | .custom _ => True
  | .sum | .stats => False

/-- An aggregate that an exact reducer comes to agrees with those that are equal to it up to the
sign of zeros. -/
theorem IsExact.approxEq_iff {r : Reducer} (h : r.IsExact) {a : Aggregate} (ha : r.Produces a)
    (b : Aggregate) : a.approxEq b = true ↔ a.unsigned = b.unsigned := by
  cases r with
  | count =>
      obtain ⟨n, rfl⟩ := ha.exists_count
      cases b <;> simp [Aggregate.approxEq, Aggregate.unsigned]
  | custom functions =>
      obtain ⟨value, -, rfl⟩ : ∃ value, True ∧ a = .custom value :=
        ha.exists_custom trivial (fun _ => trivial) fun _ _ => trivial
      cases b <;> simp [Aggregate.approxEq, Aggregate.unsigned, Json.same_iff]
  | sum => exact h.elim
  | stats => exact h.elim

end Reducer

namespace Tree

variable {r : Reducer}

/-! ## Nodes and what they should carry -/

/-- The tree and all trees below it, each at the place of the entry at its root. -/
def subtrees : Tree → List Tree
  | nil => []
  | tree@(node _ left right ..) => left.subtrees ++ tree :: right.subtrees

/-- The number of levels, counted. -/
def levels : Tree → Nat
  | nil => 0
  | node _ left right .. => 1 + max left.levels right.levels

/-- The aggregate of the entries of a tree, computed from their values alone. -/
def recomputed (r : Reducer) : Tree → Aggregate
  | nil => r.identity
  | node entry left right .. =>
      r.combine (r.combine (left.recomputed r) (r.leaf entry.value)) (right.recomputed r)

/-- The heights of the subtrees below the root differ by at most one. -/
def Leveled : Tree → Prop
  | nil => True
  | node _ left right .. => left.levels ≤ right.levels + 1 ∧ right.levels ≤ left.levels + 1

/-- What the root of a tree carries agrees with the tree below it. -/
structure Accurate (r : Reducer) (tree : Tree) : Prop where
  height_eq : tree.height = tree.levels
  len_eq : tree.len = tree.toList.length
  leveled : tree.Leveled
  agrees : (tree.recomputed r).approxEq (tree.agg r) = true

theorem produces_recomputed (tree : Tree) : r.Produces (tree.recomputed r) := by
  induction tree with
  | nil => exact .identity
  | node entry left right height len agg ihleft ihright =>
      exact .combine (.combine ihleft (.leaf entry.value)) ihright

/-- For a lawful reducer it does not matter how the entries hang together. -/
theorem recomputed_eq_total (hr : r.Lawful) (tree : Tree) :
    tree.recomputed r = r.total tree.toList := by
  induction tree with
  | nil => rfl
  | node entry left right height len agg ihleft ihright =>
      rw [recomputed, ihleft, ihright, toList, Reducer.total_append_cons hr]

theorem length_subtrees (tree : Tree) : tree.subtrees.length = tree.size := by
  induction tree with
  | nil => rfl
  | node entry left right height len agg ihleft ihright =>
      rw [subtrees, size, List.length_append, List.length_cons, ihleft, ihright, Nat.add_assoc]

theorem mem_subtrees_node {entry : Entry} {left right : Tree} {height len : Nat} {agg : Aggregate}
    {sub : Tree} : sub ∈ (node entry left right height len agg).subtrees ↔
      sub ∈ left.subtrees ∨ sub = node entry left right height len agg ∨ sub ∈ right.subtrees := by
  rw [subtrees, List.mem_append, List.mem_cons]

/-- The root of a tree in which every node is accurate carries its height and its count. -/
theorem height_eq_levels {tree : Tree} (h : ∀ sub ∈ tree.subtrees, sub.Accurate r) :
    tree.height = tree.levels ∧ tree.len = tree.toList.length := by
  cases tree with
  | nil => exact ⟨rfl, rfl⟩
  | node entry left right height len agg =>
      have hroot := h _ (mem_subtrees_node.mpr (.inr (.inl rfl)))
      exact ⟨hroot.height_eq, hroot.len_eq⟩

/-- Above accurate subtrees the heights and counts that they carry can be trusted. -/
theorem accurate_node_iff {left right : Tree} (hleft : ∀ sub ∈ left.subtrees, sub.Accurate r)
    (hright : ∀ sub ∈ right.subtrees, sub.Accurate r) (entry : Entry) (height len : Nat)
    (agg : Aggregate) : (node entry left right height len agg).Accurate r ↔
      bookkept left right height len = true ∧
        ((node entry left right height len agg).recomputed r).approxEq agg = true := by
  obtain ⟨hheightLeft, hlenLeft⟩ := height_eq_levels hleft
  obtain ⟨hheightRight, hlenRight⟩ := height_eq_levels hright
  have hlen : (node entry left right height len agg).toList.length
      = 1 + left.toList.length + right.toList.length := by
    rw [toList, List.length_append, List.length_cons]
    omega
  simp only [bookkept, Bool.and_eq_true, beq_iff_eq, decide_eq_true_eq, hheightLeft,
    hheightRight, hlenLeft, hlenRight, ← hlen]
  constructor
  · rintro ⟨hheight, hlen, ⟨hlr, hrl⟩, hagrees⟩
    exact ⟨⟨⟨⟨hheight, hlr⟩, hrl⟩, hlen⟩, hagrees⟩
  · rintro ⟨⟨⟨⟨hheight, hlr⟩, hrl⟩, hlen⟩, hagrees⟩
    exact ⟨hheight, hlen, ⟨hlr, hrl⟩, hagrees⟩

/-! ## The walk -/

/-- Every entry that a check has met lies before this identity. -/
def Progress.Before (progress : Progress) (id : EntryId) : Prop :=
  ∀ last ∈ progress.last, compare last id = .lt

/-- How far a check has come when all entries of a tree are behind it. -/
def Progress.behind (progress : Progress) (tree : Tree) : Progress where
  last := (tree.toList.getLast?.map Entry.id).or progress.last
  position := progress.position + tree.size

theorem Progress.before_iff (progress : Progress) (id : EntryId) :
    progress.Before id ↔ ¬ (progress.last.any fun last => (compare last id).isGE) = true := by
  unfold Before
  cases progress.last with
  | none => simp
  | some last => cases h : compare last id <;> simp [h]

theorem Progress.before_some {last id : EntryId} {position : Nat} :
    (⟨some last, position⟩ : Progress).Before id ↔ compare last id = .lt := by
  simp [Before]

/-- Behind a tree in order comes what is behind all its entries. -/
theorem Progress.before_behind {progress : Progress} {tree : Tree}
    (hascending : Ascending tree.toList) (hbefore : ∀ e ∈ tree.toList, progress.Before e.id)
    (id : EntryId) : (progress.behind tree).Before id ↔
      (∀ e ∈ tree.toList, compare e.id id = .lt) ∧ progress.Before id := by
  unfold behind
  cases hlist : tree.toList using List.reverseRecOn with
  | nil => simp [Before]
  | append_singleton front final =>
      rw [hlist] at hascending hbefore
      rw [List.getLast?_append, List.getLast?_singleton]
      simp only [Option.some_or, Option.map_some, before_some]
      constructor
      · intro hfinal
        refine ⟨fun e he => ?_, fun last hlast => ?_⟩
        · rcases List.mem_append.mp he with he | he
          · have hlt := (List.pairwise_append.mp hascending).2.2 e he final (by simp)
            exact Std.TransCmp.lt_trans hlt hfinal
          · rwa [List.mem_singleton.mp he]
        · exact Std.TransCmp.lt_trans (hbefore final (by simp) last hlast) hfinal
      · exact fun h => h.1 final (by simp)

theorem Progress.behind_node (progress : Progress) (entry : Entry) (left right : Tree)
    (height len : Nat) (agg : Aggregate) :
    progress.behind (node entry left right height len agg)
      = Progress.behind ⟨some entry.id, (progress.behind left).position + 1⟩ right := by
  simp only [behind, toList, size, Progress.mk.injEq]
  constructor
  · rw [List.getLast?_append, List.getLast?_cons]
    cases right.toList.getLast? <;> rfl
  · omega

/-- The order at a node is checked before the subtree to its right, all else after it. -/
theorem checkFrom_node (progress : Progress) (entry : Entry) (left right : Tree)
    (height len : Nat) (agg : Aggregate) :
    checkFrom r progress (node entry left right height len agg) =
      match checkFrom r progress left with
      | .error e => .error e
      | .ok (leftAgg, between) =>
          if between.last.any fun last => (compare last entry.id).isGE then
            .error (.outOfOrder between.position)
          else
            match checkFrom r ⟨some entry.id, between.position + 1⟩ right with
            | .error e => .error e
            | .ok (rightAgg, later) =>
                let computed := r.combine (r.combine leftAgg (r.leaf entry.value)) rightAgg
                if bookkept left right height len = false then .error (.bookkeeping between.position)
                else if computed.approxEq agg = false then
                  .error (.aggregateMismatch between.position)
                else .ok (computed, later) := by
  rw [checkFrom]
  cases checkFrom r progress left with
  | error e => rfl
  | ok found =>
      simp only [bind, Except.bind, throw, throwThe, MonadExceptOf.throw, pure, Except.pure,
        Bool.not_eq_eq_eq_not, Bool.not_true]
      split
      · rfl
      · cases checkFrom r ⟨some entry.id, found.2.position + 1⟩ right <;> rfl

/-- The steps of the walk through a node, if nothing is found. -/
theorem checkFrom_node_eq_ok_iff {progress later : Progress} {entry : Entry} {left right : Tree}
    {height len : Nat} {agg computed : Aggregate} :
    checkFrom r progress (node entry left right height len agg) = .ok (computed, later) ↔
      ∃ leftAgg between rightAgg, checkFrom r progress left = .ok (leftAgg, between) ∧
        between.Before entry.id ∧
        checkFrom r ⟨some entry.id, between.position + 1⟩ right = .ok (rightAgg, later) ∧
        bookkept left right height len = true ∧
        computed = r.combine (r.combine leftAgg (r.leaf entry.value)) rightAgg ∧
        computed.approxEq agg = true := by
  rw [checkFrom_node]
  simp only [Progress.before_iff]
  constructor
  · intro h
    split at h
    next => cases h
    next leftAgg between hleft =>
      split at h
      next => cases h
      next horder =>
        split at h
        next => cases h
        next rightAgg last hright =>
          split at h
          next => cases h
          next hbook =>
            split at h
            next => cases h
            next hagrees =>
              obtain ⟨rfl, rfl⟩ := Prod.mk.inj (Except.ok.inj h)
              exact ⟨leftAgg, between, rightAgg, hleft, horder, hright,
                Bool.eq_true_of_not_eq_false hbook, rfl, Bool.eq_true_of_not_eq_false hagrees⟩
  · rintro ⟨leftAgg, between, rightAgg, hleft, horder, hright, hbook, rfl, hagrees⟩
    simp [hleft, horder, hright, hbook, hagrees]

/-- The walk through a tree finds nothing exactly if its entries are in order behind those before
and every node is accurate. Then it has computed the aggregate of the entries anew. -/
theorem checkFrom_eq_ok_iff {progress later : Progress} {tree : Tree} {computed : Aggregate} :
    checkFrom r progress tree = .ok (computed, later) ↔
      (Ascending tree.toList ∧ (∀ e ∈ tree.toList, progress.Before e.id) ∧
        ∀ sub ∈ tree.subtrees, sub.Accurate r) ∧
      computed = tree.recomputed r ∧ later = progress.behind tree := by
  induction tree generalizing progress later computed with
  | nil =>
      have hbehind : progress.behind nil = progress := rfl
      simp [checkFrom, Ascending, subtrees, recomputed, toList, hbehind, eq_comm]
  | node entry left right height len agg ihleft ihright =>
      rw [checkFrom_node_eq_ok_iff, Progress.behind_node]
      simp only [ihleft, ihright, mem_subtrees_node, Progress.before_some]
      constructor
      · rintro ⟨_, _, _, ⟨⟨hasc, hbefore, hsubs⟩, rfl, rfl⟩, hentry,
          ⟨⟨hasc', hgt, hsubs'⟩, rfl, rfl⟩, hbook, rfl, hagree⟩
        obtain ⟨hlt, hentry⟩ := (Progress.before_behind hasc hbefore _).mp hentry
        refine ⟨⟨ascending_append_cons.mpr ⟨hasc, hasc', hlt, hgt⟩, fun e he => ?_, ?_⟩, rfl, rfl⟩
        · rcases List.mem_append.mp he with he | he
          · exact hbefore e he
          · rcases List.mem_cons.mp he with rfl | he
            · exact hentry
            · exact fun last hlast => Std.TransCmp.lt_trans (hentry last hlast) (hgt e he)
        · rintro sub (hsub | rfl | hsub)
          · exact hsubs sub hsub
          · exact (accurate_node_iff hsubs hsubs' entry height len agg).mpr ⟨hbook, hagree⟩
          · exact hsubs' sub hsub
      · rintro ⟨⟨hascending, hbefore, hsubs⟩, rfl, rfl⟩
        obtain ⟨hasc, hasc', hlt, hgt⟩ := ascending_append_cons.mp hascending
        have hbefore' : ∀ e ∈ left.toList, progress.Before e.id := fun e he =>
          hbefore e (List.mem_append_left _ he)
        have hleft : ∀ sub ∈ left.subtrees, sub.Accurate r := fun sub hsub =>
          hsubs sub (.inl hsub)
        have hright : ∀ sub ∈ right.subtrees, sub.Accurate r := fun sub hsub =>
          hsubs sub (.inr (.inr hsub))
        obtain ⟨hbook, hagree⟩ := (accurate_node_iff hleft hright entry height len agg).mp
          (hsubs _ (.inr (.inl rfl)))
        exact ⟨_, _, _, ⟨⟨hasc, hbefore', hleft⟩, rfl, rfl⟩,
          (Progress.before_behind hasc hbefore' _).mpr ⟨hlt, hbefore entry (by simp [toList])⟩,
          ⟨⟨hasc', hgt, hright⟩, rfl, rfl⟩, hbook, rfl, hagree⟩

/-- The check of a tree finds nothing exactly if its entries are in order and every node is
accurate. -/
theorem check_eq_ok_iff_accurate {tree : Tree} : tree.check r = .ok () ↔
    Ascending tree.toList ∧ ∀ sub ∈ tree.subtrees, sub.Accurate r := by
  have hbefore : ∀ e ∈ tree.toList, Progress.Before {} e.id := fun e _ last hlast => by
    cases hlast
  rw [check]
  constructor
  · intro hcheck
    cases hfound : checkFrom r {} tree with
    | error e => rw [hfound] at hcheck; cases hcheck
    | ok found =>
        obtain ⟨⟨hascending, -, hsubs⟩, -⟩ := checkFrom_eq_ok_iff.mp hfound
        exact ⟨hascending, hsubs⟩
  · rintro ⟨hascending, hsubs⟩
    rw [checkFrom_eq_ok_iff.mpr ⟨⟨hascending, hbefore, hsubs⟩, rfl, rfl⟩]
    rfl

/-! ## Trees that pass -/

theorem Sound.agg_eq_recomputed {tree : Tree} (h : tree.Sound r) :
    tree.agg r = tree.recomputed r := by
  induction tree with
  | nil => rfl
  | node entry left right height len agg ihleft ihright =>
      obtain ⟨hleft, hright, -, -, -, -, hagg⟩ := h
      rw [recomputed, ← ihleft hleft, ← ihright hright]
      exact hagg

theorem Sound.height_eq_levels {tree : Tree} (h : tree.Sound r) : tree.height = tree.levels := by
  induction tree with
  | nil => rfl
  | node entry left right height len agg ihleft ihright =>
      obtain ⟨hleft, hright, -, -, hheight, -, -⟩ := h
      rw [levels, ← ihleft hleft, ← ihright hright]
      exact hheight

theorem Sound.of_mem_subtrees {tree sub : Tree} (h : tree.Sound r) (hsub : sub ∈ tree.subtrees) :
    sub.Sound r := by
  induction tree with
  | nil => cases hsub
  | node entry left right height len agg ihleft ihright =>
      rcases mem_subtrees_node.mp hsub with hsub | rfl | hsub
      · exact ihleft h.1 hsub
      · exact h
      · exact ihright h.2.1 hsub

theorem Sound.leveled {tree : Tree} (h : tree.Sound r) : tree.Leveled := by
  cases tree with
  | nil => trivial
  | node entry left right height len agg =>
      obtain ⟨hleft, hright, hlr, hrl, -⟩ := h
      rw [hleft.height_eq_levels, hright.height_eq_levels] at hlr hrl
      exact ⟨hlr, hrl⟩

/-- In a sound tree only an aggregate that does not agree with itself can be found wrong. -/
theorem Sound.accurate_iff {tree : Tree} (h : tree.Sound r) :
    tree.Accurate r ↔ (tree.agg r).approxEq (tree.agg r) = true := by
  constructor
  · intro haccurate
    have hagrees := haccurate.agrees
    rwa [← h.agg_eq_recomputed] at hagrees
  · intro hagrees
    exact ⟨h.height_eq_levels, h.len_eq, h.leveled, by rwa [← h.agg_eq_recomputed]⟩

theorem WellFormed.check_eq_ok_iff {tree : Tree} (h : tree.WellFormed r) :
    tree.check r = .ok () ↔ ∀ sub ∈ tree.subtrees, (sub.agg r).approxEq (sub.agg r) = true := by
  rw [check_eq_ok_iff_accurate, and_iff_right h.ascending]
  exact forall₂_congr fun sub hsub => (h.sound.of_mem_subtrees hsub).accurate_iff

/-- With an exact reducer the check of a well-formed tree finds nothing. -/
theorem WellFormed.check_eq_ok (hexact : r.IsExact) {tree : Tree} (h : tree.WellFormed r) :
    tree.check r = .ok () := by
  refine h.check_eq_ok_iff.mpr fun sub hsub => ?_
  rw [(h.sound.of_mem_subtrees hsub).agg_eq_recomputed,
    hexact.approxEq_iff (produces_recomputed sub)]

theorem Sound.bookkept {entry : Entry} {left right : Tree} {height len : Nat} {agg : Aggregate}
    (h : (node entry left right height len agg).Sound r) :
    Tree.bookkept left right height len = true := by
  obtain ⟨-, -, hlr, hrl, hheight, hlen, -⟩ := h
  simp [Tree.bookkept, hlr, hrl, hheight, hlen]

/-- The walk through a sound tree in its place can only stop at an aggregate that does not agree
with itself. -/
theorem Sound.exists_of_checkFrom_eq_error {progress : Progress} {tree : Tree}
    {error : StructureError} (hsound : tree.Sound r) (hascending : Ascending tree.toList)
    (hbefore : ∀ e ∈ tree.toList, progress.Before e.id)
    (herror : checkFrom r progress tree = .error error) :
    ∃ i sub, tree.subtrees[i]? = some sub ∧ (sub.agg r).approxEq (sub.agg r) = false ∧
      error = .aggregateMismatch (progress.position + i) := by
  induction tree generalizing progress with
  | nil => cases herror
  | node entry left right height len agg ihleft ihright =>
      have hagg : agg = r.combine (r.combine (left.recomputed r) (r.leaf entry.value))
          (right.recomputed r) := hsound.agg_eq_recomputed
      have hbookkept := hsound.bookkept
      obtain ⟨hleft, hright, -⟩ := hsound
      obtain ⟨hasc, hasc', hlt, hgt⟩ := ascending_append_cons.mp hascending
      have hbefore' : ∀ e ∈ left.toList, progress.Before e.id := fun e he =>
        hbefore e (List.mem_append_left _ he)
      rw [checkFrom_node] at herror
      split at herror
      next e hfound =>
        obtain rfl := Except.error.inj herror
        obtain ⟨i, sub, hsub, hself, rfl⟩ := ihleft hleft hasc hbefore' hfound
        obtain ⟨hi, -⟩ := List.getElem?_eq_some_iff.mp hsub
        exact ⟨i, sub, (List.getElem?_append_left hi).trans hsub, hself, rfl⟩
      next leftAgg between hfound =>
        obtain ⟨-, rfl, rfl⟩ := checkFrom_eq_ok_iff.mp hfound
        have hentry : (progress.behind left).Before entry.id :=
          (Progress.before_behind hasc hbefore' _).mpr ⟨hlt, hbefore entry (by simp [toList])⟩
        split at herror
        next horder => exact absurd horder ((Progress.before_iff _ _).mp hentry)
        next horder =>
          split at herror
          next e hfound' =>
            obtain rfl := Except.error.inj herror
            obtain ⟨i, sub, hsub, hself, rfl⟩ := ihright hright hasc'
              (fun e he => Progress.before_some.mpr (hgt e he)) hfound'
            refine ⟨left.size + (i + 1), sub, ?_, hself, ?_⟩
            · rw [subtrees, ← length_subtrees, List.getElem?_append_right (Nat.le_add_right _ _),
                Nat.add_sub_cancel_left, List.getElem?_cons_succ]
              exact hsub
            · have hposition : progress.position + left.size + 1 + i
                  = progress.position + (left.size + (i + 1)) := by omega
              exact congrArg StructureError.aggregateMismatch hposition
          next rightAgg later hfound' =>
            obtain ⟨-, rfl, rfl⟩ := checkFrom_eq_ok_iff.mp hfound'
            rw [if_neg (by rw [hbookkept]; exact Bool.false_ne_true.symm)] at herror
            split at herror
            next hself =>
              refine ⟨left.size, node entry left right height len agg, ?_, ?_,
                (Except.error.inj herror).symm⟩
              · rw [subtrees, ← length_subtrees, List.getElem?_append_right (Nat.le_refl _),
                  Nat.sub_self, List.getElem?_cons_zero]
              · rw [← hagg] at hself
                exact hself
            next => cases herror

/-- Nothing is wrong with a tree: its entries are in order, and what every node carries is what its
subtree comes to, counted and computed anew. As everywhere, values that differ in the sign of a zero
are equal. -/
structure Intact (r : Reducer) (tree : Tree) : Prop where
  ascending : Ascending tree.toList
  height_eq : ∀ sub ∈ tree.subtrees, sub.height = sub.levels
  len_eq : ∀ sub ∈ tree.subtrees, sub.len = sub.toList.length
  leveled : ∀ sub ∈ tree.subtrees, sub.Leveled
  agg_eq : ∀ sub ∈ tree.subtrees, (sub.agg r).unsigned = (sub.recomputed r).unsigned

/-- With counts and with reducers on JSON the check finds nothing exactly if nothing is wrong,
whatever the nodes of the tree carry and however they are arranged. What counts as the aggregate of
a subtree does not depend on its arrangement if the reducer is lawful. -/
theorem check_eq_ok_iff_intact (hexact : r.IsExact) (tree : Tree) :
    (tree.check r = .ok () ↔ tree.Intact r) ∧
    (r.Lawful → ∀ sub ∈ tree.subtrees,
      sub.recomputed r = r.reduceValues (sub.toList.map Entry.value)) := by
  have hagrees : ∀ sub : Tree, (sub.recomputed r).approxEq (sub.agg r) = true ↔
      (sub.recomputed r).unsigned = (sub.agg r).unsigned := fun sub =>
    hexact.approxEq_iff (produces_recomputed sub) _
  refine ⟨?_, fun hr sub _ => recomputed_eq_total hr sub⟩
  rw [check_eq_ok_iff_accurate]
  constructor
  · rintro ⟨hascending, hsubs⟩
    exact {
      ascending := hascending
      height_eq := fun sub hsub => (hsubs sub hsub).height_eq
      len_eq := fun sub hsub => (hsubs sub hsub).len_eq
      leveled := fun sub hsub => (hsubs sub hsub).leveled
      agg_eq := fun sub hsub => ((hagrees sub).mp (hsubs sub hsub).agrees).symm }
  · intro h
    exact ⟨h.ascending, fun sub hsub => {
      height_eq := h.height_eq sub hsub
      len_eq := h.len_eq sub hsub
      leveled := h.leveled sub hsub
      agrees := (hagrees sub).mpr (h.agg_eq sub hsub).symm }⟩

/-- Nothing is wrong with a tree of two entries, until its root counts three. -/
theorem check_eq_ok_iff_intact_leaning : leaning.Intact .count ∧
    ¬ (node (leaningEntry 0) nil (node (leaningEntry 1) nil nil 1 1 (.count 1)) 2 2
      (.count 3)).Intact .count := by
  constructor
  · exact (check_eq_ok_iff_intact (r := .count) trivial leaning).1.mp rfl
  · intro hintact
    have hcheck := (check_eq_ok_iff_intact (r := .count) trivial _).1.mpr hintact
    have hfound : Tree.check .count (node (leaningEntry 0) nil
        (node (leaningEntry 1) nil nil 1 1 (.count 1)) 2 2 (.count 3))
          = .error (.aggregateMismatch 0) := rfl
    rw [hfound] at hcheck
    cases hcheck

end Tree

end ViewIndex
