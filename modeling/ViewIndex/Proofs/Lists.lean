import Mathlib.Algebra.GroupWithZero.Nat
import Mathlib.Algebra.Order.BigOperators.Group.List
import Mathlib.Algebra.Order.Group.Nat
import Mathlib.Data.List.Induction
import Mathlib.Data.List.Nodup

/-!
# Lists

Sorting by a number, the lengths of pieces that are put together, the first and last items of a
list, and how many items have a property.
-/

namespace ViewIndex

variable {α β : Type}

/-- Sorting by a number gives the list with the same members in ascending order. -/
theorem mergeSort_eq_of_ascending {key : α → Nat} {listed ordered : List α}
    (hordered : ordered.Pairwise fun a b => key a < key b) (hlisted : listed.Nodup)
    (hmem : ∀ a, a ∈ listed ↔ a ∈ ordered) :
    listed.mergeSort (fun a b => key a ≤ key b) = ordered := by
  have hnodup : ordered.Nodup := hordered.imp fun hlt heq => Nat.ne_of_lt hlt (congrArg key heq)
  have hperm : (listed.mergeSort fun a b => key a ≤ key b).Perm ordered :=
    (List.mergeSort_perm _ _).trans ((List.perm_ext_iff_of_nodup hlisted hnodup).mpr hmem)
  have hsorted : (listed.mergeSort fun a b => key a ≤ key b).Pairwise fun a b => key a ≤ key b := by
    refine (List.pairwise_mergeSort (fun a b c hab hbc => ?_) (fun a b => ?_) _).imp
      of_decide_eq_true
    · simp only [decide_eq_true_eq] at hab hbc ⊢
      exact Nat.le_trans hab hbc
    · simp only [Bool.or_eq_true, decide_eq_true_eq]
      exact Nat.le_total (key a) (key b)
  -- No two members have one key, so the sorted list ascends strictly, too.
  have hdistinct := (hperm.pairwise_iff fun hne => Ne.symm hne).mpr (hordered.imp Nat.ne_of_lt)
  have hascending := hsorted.imp₂ (fun _ _ hle hne => Nat.lt_of_le_of_ne hle hne) hdistinct
  exact hperm.eq_of_pairwise (fun _ _ _ _ hab hba => absurd hab (Nat.lt_asymm hba)) hascending
    hordered

theorem length_le_flatMap (f : α → List β) {items : List α} {a : α} (h : a ∈ items) :
    (f a).length ≤ (items.flatMap f).length := by
  rw [List.length_flatMap]
  exact List.le_sum_of_mem (List.mem_map_of_mem (f := fun b => (f b).length) h)

theorem card_le_flatMap {f : α → List β} {items : List α} (h : ∀ a ∈ items, 0 < (f a).length) :
    items.length ≤ (items.flatMap f).length := by
  induction items with
  | nil => exact Nat.le_refl 0
  | cons first rest ih =>
      have hrest := ih fun a ha => h a (List.mem_cons_of_mem _ ha)
      have hfirst := h first List.mem_cons_self
      rw [List.flatMap_cons, List.length_append, List.length_cons]
      omega

theorem filter_append_filter_not {items : List α} {p : α → Bool}
    (h : items.Pairwise fun a b => p b = true → p a = true) :
    items.filter p ++ items.filter (fun a => !p a) = items := by
  induction items with
  | nil => rfl
  | cons a rest ih =>
      obtain ⟨hfirst, hrest⟩ := List.pairwise_cons.mp h
      cases hp : p a with
      | true =>
          rw [List.filter_cons_of_pos hp, List.filter_cons_of_neg (by simp [hp]), List.cons_append,
            ih hrest]
      | false =>
          have hnone : rest.filter p = [] := by
            apply List.filter_eq_nil_iff.mpr
            intro b hb hpb
            rw [hfirst b hb hpb] at hp
            cases hp
          have hall : rest.filter (fun a => !p a) = rest := by
            rw [hnone, List.nil_append] at ih
            exact ih hrest
          rw [List.filter_cons_of_neg (by simp [hp]), List.filter_cons_of_pos (by simp [hp]), hnone,
            hall, List.nil_append]

/-- What is filtered by where it stands in a list is a piece of the list. -/
theorem filter_eq_take_drop {p : α → Bool} {items : List α} {start stop : Nat}
    (h : ∀ i a, items[i]? = some a → (p a = true ↔ start ≤ i ∧ i < stop)) :
    items.filter p = (items.drop start).take (stop - start) := by
  induction items generalizing start stop with
  | nil => simp
  | cons first rest ih =>
      have hfirst := h 0 first rfl
      have hrest : ∀ i a, rest[i]? = some a → (p a = true ↔ start - 1 ≤ i ∧ i < stop - 1) := by
        intro i a hget
        rw [h (i + 1) a hget]
        omega
      rw [List.filter_cons, ih hrest]
      cases start with
      | zero => cases stop <;> simp [hfirst]
      | succ start => simp [hfirst, Nat.sub_sub, Nat.add_comm 1]

theorem getLast?_filter_concat {p : α → Bool} (items : List α) {a : α} (h : p a = true) :
    ((items ++ [a]).filter p).getLast? = some a := by
  rw [List.filter_append, List.filter_cons_of_pos h, List.filter_nil, List.getLast?_concat]

/-- The last value of a partial function comes from the last item that it is defined on. -/
theorem getLast?_filterMap_eq (f : α → Option β) (items : List α) :
    (items.filterMap f).getLast? = ((items.filter fun a => (f a).isSome).getLast?).bind f := by
  induction items using List.reverseRecOn with
  | nil => rfl
  | append_singleton items a ih =>
      cases ha : f a with
      | none => simp [ha, ih]
      | some value => simp [ha]

theorem filter_eq_singleton_of_nodup [DecidableEq β] {f : α → β} {items : List α}
    (h : (items.map f).Nodup) {a : α} (ha : a ∈ items) :
    (items.filter fun b => f b = f a) = [a] := by
  obtain ⟨before, after, rfl⟩ := List.append_of_mem ha
  rw [List.map_append, List.map_cons, List.nodup_middle, List.nodup_cons, ← List.map_append,
    List.mem_map] at h
  have hother : ∀ b ∈ before ++ after, f b ≠ f a := fun b hb heq => h.1 ⟨b, hb, heq⟩
  have hnone (items : List α) (hitems : ∀ b ∈ items, f b ≠ f a) :
      (items.filter fun b => f b = f a) = [] :=
    List.filter_eq_nil_iff.mpr fun b hb => by simpa using hitems b hb
  have hbefore := hnone before fun b hb => hother b (List.mem_append_left _ hb)
  have hafter := hnone after fun b hb => hother b (List.mem_append_right _ hb)
  rw [List.filter_append, hbefore, List.filter_cons_of_pos (by simp), hafter, List.nil_append]

theorem forall_of_countP_and_eq {p q : α → Prop} [DecidablePred p] [DecidablePred q]
    {items : List α} (h : (items.countP fun a => p a ∧ q a) = items.countP fun a => p a) :
    ∀ a ∈ items, p a → q a := by
  have hall : ((items.filter fun a => p a).countP fun a => q a)
      = (items.filter fun a => p a).length := by
    rw [List.countP_filter, ← List.countP_eq_length_filter, ← h]
    refine List.countP_congr fun a _ => ?_
    simp [and_comm]
  intro a ha hp
  exact of_decide_eq_true
    (List.countP_eq_length.mp hall a (List.mem_filter.mpr ⟨ha, decide_eq_true hp⟩))

theorem sum_map_filter (p : α → Bool) (f : α → Nat) (items : List α) :
    ((items.filter p).map f).sum = (items.map fun a => if p a then f a else 0).sum := by
  simp [List.sum_map_ite]

theorem countP_pos_le_sum (f : α → Nat) (items : List α) :
    (items.countP fun a => 0 < f a) ≤ (items.map f).sum := by
  induction items with
  | nil => exact Nat.le_refl 0
  | cons a rest ih =>
      rw [List.countP_cons, List.map_cons, List.sum_cons]
      split
      next hpos =>
        have hone : 0 < f a := of_decide_eq_true hpos
        omega
      next => omega

/-- A sum counts what it is positive for exactly if no summand is greater than one. -/
theorem sum_eq_countP_pos_iff (f : α → Nat) (items : List α) :
    (items.map f).sum = (items.countP fun a => 0 < f a) ↔ ∀ a ∈ items, f a ≤ 1 := by
  induction items with
  | nil => simp
  | cons a rest ih =>
      have hle := countP_pos_le_sum f rest
      rw [List.forall_mem_cons, ← ih, List.map_cons, List.sum_cons, List.countP_cons]
      split
      next hpos =>
        have hone : 0 < f a := of_decide_eq_true hpos
        omega
      next hzero =>
        have hnot : ¬0 < f a := fun hpos => hzero (decide_eq_true hpos)
        omega

/-- If nothing fails, all results are there. -/
theorem mapM_eq_ok {ε : Type} {f : α → Except ε β} {g : α → β} {items : List α}
    (h : ∀ a ∈ items, f a = .ok (g a)) : items.mapM f = .ok (items.map g) := by
  induction items with
  | nil => rfl
  | cons a rest ih =>
      obtain ⟨hfirst, hrest⟩ := List.forall_mem_cons.mp h
      rw [List.mapM_cons, hfirst, ih hrest]
      rfl

theorem length_of_mapM_eq_ok {ε : Type} {f : α → Except ε β} {items : List α} {results : List β}
    (h : items.mapM f = .ok results) : results.length = items.length := by
  induction items generalizing results with
  | nil => cases h; rfl
  | cons a rest ih =>
      rw [List.mapM_cons] at h
      cases hfirst : f a with
      | error e => rw [hfirst] at h; cases h
      | ok b =>
          cases hrest : rest.mapM f with
          | error e => rw [hfirst, hrest] at h; cases h
          | ok others =>
              rw [hfirst, hrest] at h
              cases h
              exact congrArg (· + 1) (ih hrest)

/-- The first items, as many as a limit allows. -/
def limited (limit : Option Nat) (items : List α) : List α :=
  match limit with
  | none => items
  | some n => items.take n

section Limited

variable {limit : Option Nat} {items : List α}

theorem limited_nil (limit : Option Nat) : limited limit ([] : List α) = [] := by
  cases limit with
  | none => rfl
  | some n => exact List.take_nil

theorem limited_map (limit : Option Nat) (f : α → β) (items : List α) :
    limited limit (items.map f) = (limited limit items).map f := by
  cases limit with
  | none => rfl
  | some n => exact List.map_take.symm

theorem prefix_limited (limit : Option Nat) (items : List α) :
    limited limit items <+: items := by
  cases limit with
  | none => exact List.prefix_rfl
  | some n => exact List.take_prefix n items

theorem limited_of_reached {taken : Nat} (h : limit.any (· ≤ taken) = true) (items : List α) :
    limited (limit.map (· - taken)) items = [] := by
  cases limit with
  | none => cases h
  | some n =>
      have hle : n ≤ taken := by simpa using h
      rw [Option.map_some, Nat.sub_eq_zero_of_le hle]
      rfl

/-- What a limit leaves of two lists: as much of the second as the first does not use up. -/
theorem limited_append (limit : Option Nat) (a b : List α) :
    limited limit (a ++ b)
      = limited limit a ++ limited (limit.map (· - (limited limit a).length)) b := by
  cases limit with
  | none => rfl
  | some n =>
      simp only [limited, Option.map_some, List.take_append, List.length_take]
      congr 2
      omega

theorem map_sub_sub (limit : Option Nat) (m n : Nat) :
    (limit.map (· - m)).map (· - n) = limit.map (· - (m + n)) := by
  cases limit with
  | none => rfl
  | some k => exact congrArg some (Nat.sub_sub k m n)

/-- If a limit does not let all items through, it is used up. -/
theorem limited_of_lt {other : List β} (h : (limited limit items).length < items.length) :
    limited (limit.map (· - (limited limit items).length)) other = [] := by
  cases limit with
  | none => exact absurd h (Nat.lt_irrefl _)
  | some n =>
      simp only [limited, List.length_take] at h ⊢
      rw [Nat.min_eq_left (by omega), Option.map_some, Nat.sub_self]
      rfl

/-- Unless the limit is zero, it is not reached at the start. -/
theorem any_le_zero {limit : Option Nat} (h : limit ≠ some 0) : limit.any (· ≤ 0) = false := by
  cases limit with
  | none => rfl
  | some n =>
      have hpos : n ≠ 0 := fun hzero => h (congrArg some hzero)
      simpa using hpos

/-- The items up to the first number at which the limit is reached are those it lets through. -/
theorem limited_eq_take {limit : Option Nat} {items : List α} {n : Nat}
    (hgoing : ∀ m < n, limit.any (· ≤ m) = false)
    (hend : n < items.length → limit.any (· ≤ n) = true) : limited limit items = items.take n := by
  cases limit with
  | none =>
      have hall : ¬ n < items.length := fun hlt => by cases hend hlt
      exact (List.take_of_length_le (Nat.le_of_not_lt hall)).symm
  | some bound =>
      simp only [Option.any_some, decide_eq_true_eq, decide_eq_false_iff_not, Nat.not_le]
        at hgoing hend
      have hbelow : n ≤ bound := Nat.le_of_not_lt fun hlt => Nat.lt_irrefl _ (hgoing bound hlt)
      by_cases hlt : n < items.length
      · rw [Nat.le_antisymm hbelow (hend hlt)]
        rfl
      · have hlong := Nat.le_of_not_lt hlt
        rw [List.take_of_length_le hlong]
        exact List.take_of_length_le (Nat.le_trans hlong hbelow)

/-- What is dropped from the first items is dropped from all, unless it is more than these. -/
theorem drop_take_append_drop (items : List α) (m n : Nat) :
    (items.take n).drop m ++ items.drop n = items.drop (min m n) := by
  rcases Nat.le_total m n with hle | hle
  · rw [Nat.min_eq_left hle, List.drop_take]
    have hparts := List.drop_take_append_drop items m (n - m)
    rwa [Nat.add_sub_cancel' hle] at hparts
  · have hnone : (items.take n).drop m = [] :=
      List.drop_eq_nil_of_le (Nat.le_trans (List.length_take_le n items) hle)
    rw [Nat.min_eq_right hle, hnone, List.nil_append]

/-- Items are dropped from a list with a limit that leaves room for them. -/
theorem drop_limited (limit : Option Nat) (items : List α) (n : Nat) :
    (limited (limit.map (· + n)) items).drop n = limited limit (items.drop n) := by
  cases limit with
  | none => rfl
  | some m =>
      simp only [limited, Option.map_some]
      rw [List.drop_take, Nat.add_sub_cancel]

end Limited

end ViewIndex
