import ViewIndex.Proofs.Float.Magnitudes
import ViewIndex.Proofs.Tree.Check

/-!
# Sums in trees

What a node of a sound tree carries and what the check computes anew is one number, added up in one
order. So rounding makes no difference between them, and neither does an infinity. Only a sum that
is a NaN is found wrong, since it does not even agree with itself. Finite numbers lead there if sums
below a node have overflowed in both directions.
-/

namespace ViewIndex

open Floats
open Float.Model.UnpackedFloat (Sign)

/-- What an entry adds to a sum. -/
def Entry.amount (entry : Entry) : Float := entry.value.asFloat?.getD 0.0

/-- Whether a reducer adds up numbers. -/
def Reducer.IsAdding : Reducer → Prop
  | .sum | .stats => True
  | .count | .custom _ => False

/-! ## Summaries -/

/-- Everything in a summary is a number if its sum is. -/
structure Summary.Follows (s : Summary) (x : Float) : Prop where
  sum_eq : s.sum = x
  least : x.isNaN = false → s.least.isNaN = false
  greatest : x.isNaN = false → s.greatest.isNaN = false
  sumOfSquares : x.isNaN = false → OnSide .positive (parts s.sumOfSquares)

namespace Summary

theorem follows_empty : empty.Follows 0.0 where
  sum_eq := rfl
  least _ := by decide
  greatest _ := by decide
  sumOfSquares _ := trivial

theorem follows_single (x : Float) : (single x).Follows x where
  sum_eq := rfl
  least h := h
  greatest h := h
  sumOfSquares h := onSide_parts_mul_self h

theorem Follows.merge {a b : Summary} {x y : Float} (ha : a.Follows x) (hb : b.Follows y) :
    (a.merge b).Follows (x + y) where
  sum_eq := by rw [Summary.merge, ha.sum_eq, hb.sum_eq]
  least h := isNaN_lesser (ha.least (isNaN_eq_false_of_add h).1) _
  greatest h := isNaN_greater (ha.greatest (isNaN_eq_false_of_add h).1) _
  sumOfSquares h :=
    onSide_parts_add (ha.sumOfSquares (isNaN_eq_false_of_add h).1)
      (hb.sumOfSquares (isNaN_eq_false_of_add h).2)

end Summary

namespace Tree

variable {r : Reducer}

/-- The sum of the numbers in a tree. -/
def sum : Tree → Float
  | nil => 0.0
  | node entry left right .. => left.sum + entry.amount + right.sum

theorem recomputed_sum (tree : Tree) : tree.recomputed .sum = .sum tree.sum := by
  induction tree with
  | nil => rfl
  | node entry left right height len agg ihleft ihright =>
      rw [recomputed, ihleft, ihright]
      rfl

theorem recomputed_stats (tree : Tree) :
    ∃ s : Summary, tree.recomputed .stats = .stats s ∧ s.Follows tree.sum := by
  induction tree with
  | nil => exact ⟨.empty, rfl, Summary.follows_empty⟩
  | node entry left right height len agg ihleft ihright =>
      obtain ⟨a, hleft, ha⟩ := ihleft
      obtain ⟨b, hright, hb⟩ := ihright
      have hentry : ((entry.value.asFloat?.map Summary.single).getD .empty).Follows
          entry.amount := by
        unfold Entry.amount
        cases entry.value.asFloat? with
        | none => exact Summary.follows_empty
        | some x => exact Summary.follows_single x
      refine ⟨_, ?_, (ha.merge hentry).merge hb⟩
      rw [recomputed, hleft, hright]
      rfl

/-- What a tree comes to agrees with itself unless its sum is a NaN. -/
theorem approxEq_recomputed_self (hr : r.IsAdding) (tree : Tree) :
    (tree.recomputed r).approxEq (tree.recomputed r) = true ↔ tree.sum.isNaN = false := by
  cases r with
  | count | custom => exact hr.elim
  | sum => simp [recomputed_sum, Aggregate.approxEq, close_self]
  | stats =>
      obtain ⟨s, hs, hfollows⟩ := recomputed_stats tree
      simp only [hs, Aggregate.approxEq, close_self, beq_self_eq_not_isNaN, hfollows.sum_eq]
      cases hsum : tree.sum.isNaN with
      | true => simp
      | false =>
          have hsquares := isNaN_of_onSide (hfollows.sumOfSquares hsum)
          simp only [hsquares, hfollows.least hsum, hfollows.greatest hsum, beq_self_eq_true,
            Bool.not_false, Bool.and_self]

/-- The check of a well-formed tree finds nothing exactly if no node's sum is a NaN. -/
theorem WellFormed.check_eq_ok_iff_isNaN (hr : r.IsAdding) {tree : Tree} (h : tree.WellFormed r) :
    tree.check r = .ok () ↔ ∀ sub ∈ tree.subtrees, sub.sum.isNaN = false := by
  rw [h.check_eq_ok_iff]
  refine forall₂_congr fun sub hsub => ?_
  rw [(h.sound.of_mem_subtrees hsub).agg_eq_recomputed, approxEq_recomputed_self hr]

/-- The check of a well-formed tree can only stop at a node whose sum is a NaN. -/
theorem WellFormed.exists_of_check_eq_error (hr : r.IsAdding) {tree : Tree}
    (h : tree.WellFormed r) {error : StructureError} (herror : tree.check r = .error error) :
    ∃ i sub, tree.subtrees[i]? = some sub ∧ sub.sum.isNaN = true ∧
      error = .aggregateMismatch i := by
  have hbefore : ∀ e ∈ tree.toList, Progress.Before {} e.id := fun e _ last hlast => by
    cases hlast
  have hfound : checkFrom r {} tree = .error error := by
    rw [check] at herror
    cases hwalk : checkFrom r {} tree with
    | error e =>
        rw [hwalk] at herror
        exact congrArg Except.error (Except.error.inj herror)
    | ok found => rw [hwalk] at herror; cases herror
  obtain ⟨i, sub, hsub, hself, rfl⟩ :=
    h.sound.exists_of_checkFrom_eq_error h.ascending hbefore hfound
  have hmem := List.mem_of_getElem? hsub
  rw [(h.sound.of_mem_subtrees hmem).agg_eq_recomputed, Bool.eq_false_iff, ne_eq,
    approxEq_recomputed_self hr, Bool.not_eq_false] at hself
  exact ⟨i, sub, hsub, hself, by rw [Nat.zero_add]⟩

/-! ## Where sums become NaNs -/

/-- Infinities of opposite sign are added at the root. -/
def Collides : Tree → Prop
  | nil => False
  | node entry left right .. =>
      Opposed left.sum entry.amount ∨ Opposed (left.sum + entry.amount) right.sum

theorem mem_toList_of_mem_subtrees {tree sub : Tree} (hsub : sub ∈ tree.subtrees) {e : Entry}
    (he : e ∈ sub.toList) : e ∈ tree.toList := by
  induction tree with
  | nil => cases hsub
  | node entry left right height len agg ihleft ihright =>
      rcases mem_subtrees_node.mp hsub with hsub | rfl | hsub
      · exact List.mem_append_left _ (ihleft hsub)
      · exact he
      · exact List.mem_append_right _ (List.mem_cons_of_mem _ (ihright hsub))

theorem isNaN_sum_node {entry : Entry} {left right : Tree} {height len : Nat} {agg : Aggregate} :
    (node entry left right height len agg).sum.isNaN = true ↔
      left.sum.isNaN = true ∨ entry.amount.isNaN = true ∨ right.sum.isNaN = true ∨
        (node entry left right height len agg).Collides := by
  rw [sum, isNaN_add, isNaN_add, Collides]
  tauto

theorem isNaN_sum_of_subtrees {tree : Tree} (h : ∀ sub ∈ tree.subtrees, sub.sum.isNaN = false) :
    tree.sum.isNaN = false := by
  cases tree with
  | nil => decide
  | node => exact h _ (mem_subtrees_node.mpr (.inr (.inl rfl)))

/-- Sums become NaNs where a value is one, and where sums meet that have overflowed in opposite
directions. -/
theorem forall_isNaN_sum_iff (tree : Tree) :
    (∀ sub ∈ tree.subtrees, sub.sum.isNaN = false) ↔
      (∀ e ∈ tree.toList, e.amount.isNaN = false) ∧ ∀ sub ∈ tree.subtrees, ¬ sub.Collides := by
  induction tree with
  | nil => simp [subtrees, toList]
  | node entry left right height len agg ihleft ihright =>
      simp only [mem_subtrees_node, toList, List.mem_append, List.mem_cons]
      constructor
      · intro h
        obtain ⟨hnumbers, hmeet⟩ := ihleft.mp fun sub hsub => h sub (.inl hsub)
        obtain ⟨hnumbers', hmeet'⟩ := ihright.mp fun sub hsub => h sub (.inr (.inr hsub))
        have hroot := h _ (.inr (.inl rfl))
        rw [Bool.eq_false_iff, ne_eq, isNaN_sum_node] at hroot
        constructor
        · rintro e (he | rfl | he)
          · exact hnumbers e he
          · exact Bool.eq_false_iff.mpr fun hnan => hroot (.inr (.inl hnan))
          · exact hnumbers' e he
        · rintro sub (hsub | rfl | hsub)
          · exact hmeet sub hsub
          · exact fun hcollides => hroot (.inr (.inr (.inr hcollides)))
          · exact hmeet' sub hsub
      · rintro ⟨hnumbers, hmeet⟩
        have hleft := ihleft.mpr
          ⟨fun e he => hnumbers e (.inl he), fun sub hsub => hmeet sub (.inl hsub)⟩
        have hright := ihright.mpr
          ⟨fun e he => hnumbers e (.inr (.inr he)), fun sub hsub => hmeet sub (.inr (.inr hsub))⟩
        rintro sub (hsub | rfl | hsub)
        · exact hleft sub hsub
        · rw [Bool.eq_false_iff, ne_eq, isNaN_sum_node, isNaN_sum_of_subtrees hleft,
            isNaN_sum_of_subtrees hright, hnumbers entry (.inr (.inl rfl))]
          simpa using hmeet _ (.inr (.inl rfl))
        · exact hright sub hsub

/-! ## Sums that stay numbers -/

/-- Numbers on one side of zero add up to one on that side. -/
theorem onSide_sum {s : Sign} {tree : Tree} (h : ∀ e ∈ tree.toList, OnSide s (parts e.amount)) :
    OnSide s (parts tree.sum) := by
  induction tree with
  | nil => trivial
  | node entry left right height len agg ihleft ihright =>
      have hleft := ihleft fun e he => h e (List.mem_append_left _ he)
      have hright := ihright fun e he => h e (by simp [toList, he])
      exact onSide_parts_add (onSide_parts_add hleft (h entry (by simp [toList]))) hright

/-- Adding up two subtrees and an entry at most quadruples the largest number. -/
theorem within_sum {k : Nat} {tree : Tree} (hk : k + 2 * tree.levels ≤ 1023)
    (h : ∀ e ∈ tree.toList, Within k (parts e.amount)) :
    Within (k + 2 * tree.levels) (parts tree.sum) := by
  induction tree with
  | nil => trivial
  | node entry left right height len agg ihleft ihright =>
      rw [levels] at hk ⊢
      have hleft := ihleft (by omega) fun e he => h e (List.mem_append_left _ he)
      have hright := ihright (by omega) fun e he => h e (by simp [toList, he])
      have hentry := h entry (by simp [toList])
      have hsum := within_parts_add (by omega)
        (hleft.mono (l := k + 2 * max left.levels right.levels) (by omega))
        (hentry.mono (by omega))
      exact (within_parts_add (by omega) hsum (hright.mono (by omega))).mono (by omega)

theorem two_mul_le_sq_add {a b p : Nat} (ha : p ≤ a ^ 2) (hb : p ≤ 2 * b ^ 2) :
    2 * p ≤ (a + b) ^ 2 := by
  rcases Nat.le_total a b with hab | hab <;> nlinarith

/-- A tree whose subtrees are nearly of one height has many entries for its height. -/
theorem two_pow_levels_le {tree : Tree} (h : ∀ sub ∈ tree.subtrees, sub.Leveled) :
    2 ^ tree.levels ≤ (tree.toList.length + 1) ^ 2 := by
  induction tree with
  | nil => decide
  | node entry left right height len agg ihleft ihright =>
      obtain ⟨hlr, hrl⟩ := h _ (mem_subtrees_node.mpr (.inr (.inl rfl)))
      have hleft := ihleft fun sub hsub => h sub (mem_subtrees_node.mpr (.inl hsub))
      have hright := ihright fun sub hsub => h sub (mem_subtrees_node.mpr (.inr (.inr hsub)))
      have hlength : (node entry left right height len agg).toList.length + 1
          = (left.toList.length + 1) + (right.toList.length + 1) := by
        rw [toList, List.length_append, List.length_cons]
        omega
      rw [hlength, levels]
      generalize left.toList.length + 1 = a at *
      generalize right.toList.length + 1 = b at *
      have hhigher : 2 ^ left.levels ≤ 2 * b ^ 2 :=
        calc 2 ^ left.levels ≤ 2 ^ (right.levels + 1) := Nat.pow_le_pow_right (by decide) hlr
          _ = 2 * 2 ^ right.levels := Nat.pow_succ'
          _ ≤ 2 * b ^ 2 := Nat.mul_le_mul_left 2 hright
      have hhigher' : 2 ^ right.levels ≤ 2 * a ^ 2 :=
        calc 2 ^ right.levels ≤ 2 ^ (left.levels + 1) := Nat.pow_le_pow_right (by decide) hrl
          _ = 2 * 2 ^ left.levels := Nat.pow_succ'
          _ ≤ 2 * a ^ 2 := Nat.mul_le_mul_left 2 hleft
      rw [Nat.add_comm 1, Nat.pow_succ']
      rcases Nat.le_total right.levels left.levels with hle | hle
      · rw [Nat.max_eq_left hle]
        exact two_mul_le_sq_add hleft hhigher
      · rw [Nat.max_eq_right hle, Nat.add_comm a b]
        exact two_mul_le_sq_add hright hhigher'

theorem levels_le_of_mem_subtrees {tree sub : Tree} (hsub : sub ∈ tree.subtrees) :
    sub.levels ≤ tree.levels := by
  induction tree with
  | nil => cases hsub
  | node entry left right height len agg ihleft ihright =>
      rw [levels]
      rcases mem_subtrees_node.mp hsub with hsub | rfl | hsub
      · have := ihleft hsub
        omega
      · exact Nat.le_refl _
      · have := ihright hsub
        omega

/-- Whatever overflows in one direction only is found right. -/
theorem WellFormed.check_eq_ok_of_onSide (hr : r.IsAdding) {tree : Tree} (h : tree.WellFormed r)
    {s : Sign} (hside : ∀ e ∈ tree.toList, OnSide s (parts e.amount)) : tree.check r = .ok () := by
  refine (h.check_eq_ok_iff_isNaN hr).mpr fun sub hsub => ?_
  exact isNaN_of_onSide (onSide_sum fun e he => hside e (mem_toList_of_mem_subtrees hsub he))

/-- Fewer than `2 ^ 64` numbers, none of them larger than `2 ^ 765`, do not overflow. -/
theorem WellFormed.check_eq_ok_of_within (hr : r.IsAdding) {tree : Tree} (h : tree.WellFormed r)
    (hlength : tree.toList.length < 2 ^ 64)
    (hbound : ∀ e ∈ tree.toList, Within 765 (parts e.amount)) : tree.check r = .ok () := by
  have hlevels : tree.levels ≤ 128 := by
    have hpow : 2 ^ tree.levels ≤ 2 ^ 128 :=
      calc 2 ^ tree.levels ≤ (tree.toList.length + 1) ^ 2 :=
            two_pow_levels_le fun sub hsub => (h.sound.of_mem_subtrees hsub).leveled
        _ ≤ (2 ^ 64) ^ 2 := Nat.pow_le_pow_left hlength 2
        _ = 2 ^ 128 := by rw [← Nat.pow_mul]
    exact (Nat.pow_le_pow_iff_right Nat.one_lt_two).mp hpow
  refine (h.check_eq_ok_iff_isNaN hr).mpr fun sub hsub => ?_
  have hle := levels_le_of_mem_subtrees hsub
  exact isNaN_of_within (within_sum (by omega) fun e he =>
    hbound e (mem_toList_of_mem_subtrees hsub he))

end Tree

end ViewIndex
