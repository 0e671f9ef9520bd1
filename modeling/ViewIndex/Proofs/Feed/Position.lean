import Mathlib.Algebra.GroupWithZero.Nat
import Mathlib.Algebra.Order.BigOperators.Group.List
import Mathlib.Algebra.Order.Group.Nat
import ViewIndex.Document

/-!
# Positions

A position is known by its partitions and the number that each has. The position that gives each of
the first partitions a number lags behind nothing that is not ahead in one of them.
-/

namespace ViewIndex.Position

theorem seq_eq (position : Position) (p : Nat) : position.seq p = (position[p]?).getD 0 :=
  Std.ExtTreeMap.getD_eq_getD_getElem?

theorem seq_insert (position : Position) (p q n : Nat) :
    Position.seq (position.insert p n) q = if p = q then n else position.seq q := by
  rw [seq, Std.ExtTreeMap.getD_insert]
  simp [seq]

theorem seq_of_not_mem {position : Position} {p : Nat} (h : p ∉ position) : position.seq p = 0 :=
  Std.ExtTreeMap.getD_eq_fallback h

/-- Positions with the same partitions and numbers are the same. -/
theorem ext_seq {a b : Position} (hmem : ∀ p, p ∈ a ↔ p ∈ b) (hseq : ∀ p, a.seq p = b.seq p) :
    a = b := by
  apply Std.ExtTreeMap.ext_getElem?
  intro p
  have hp := hmem p
  have heq := hseq p
  rw [seq_eq, seq_eq] at heq
  rw [Std.ExtTreeMap.mem_iff_isSome_getElem?, Std.ExtTreeMap.mem_iff_isSome_getElem?] at hp
  cases ha : a[p]? <;> cases hb : b[p]? <;> simp_all

/-- A position that has nothing that a later one lacks. -/
structure Precedes (a b : Position) : Prop where
  mem : ∀ p ∈ a, p ∈ b
  seq_le : ∀ p, a.seq p ≤ b.seq p

theorem Precedes.refl (a : Position) : Precedes a a := ⟨fun _ h => h, fun _ => Nat.le_refl _⟩

theorem Precedes.of_empty (a : Position) : Precedes ∅ a where
  mem p hp := absurd hp Std.ExtTreeMap.not_mem_empty
  seq_le p := by
    rw [seq_of_not_mem Std.ExtTreeMap.not_mem_empty]
    exact Nat.zero_le _

theorem Precedes.trans {a b c : Position} (hab : Precedes a b) (hbc : Precedes b c) :
    Precedes a c where
  mem p h := hbc.mem p (hab.mem p h)
  seq_le p := Nat.le_trans (hab.seq_le p) (hbc.seq_le p)

theorem foldl_merge_le_iff (items : List (Nat × Nat)) (start : Position) (p n : Nat) :
    Position.seq (items.foldl (fun merged (partition, seq) =>
        merged.insert partition (max (merged.seq partition) seq)) start) p ≤ n ↔
      start.seq p ≤ n ∧ ∀ item ∈ items, item.1 = p → item.2 ≤ n := by
  induction items generalizing start with
  | nil => simp
  | cons item rest ih =>
      rw [List.foldl_cons, ih, seq_insert]
      by_cases hp : item.1 = p
      · simp [hp, and_assoc]
      · simp [hp]

theorem mem_foldl_merge (items : List (Nat × Nat)) (start : Position) (p : Nat) :
    p ∈ items.foldl (fun (merged : Position) (partition, seq) =>
        merged.insert partition (max (merged.seq partition) seq)) start ↔
      p ∈ start ∨ ∃ item ∈ items, item.1 = p := by
  induction items generalizing start with
  | nil => simp
  | cons item rest ih =>
      rw [List.foldl_cons, ih, Std.ExtTreeMap.mem_insert]
      simp [or_assoc, or_left_comm]

theorem seq_of_mem_toList {position : Position} {item : Nat × Nat} (h : item ∈ position.toList) :
    item.1 ∈ position ∧ position.seq item.1 = item.2 := by
  rw [Std.ExtTreeMap.mem_toList_iff_getElem?_eq_some] at h
  constructor
  · rw [Std.ExtTreeMap.mem_iff_isSome_getElem?, h]
    rfl
  · rw [seq_eq, h, Option.getD_some]

/-- Merging with a later position gives the later one. -/
theorem merge_eq_of_precedes {a b : Position} (h : Precedes a b) : a.merge b = b := by
  apply ext_seq
  · intro p
    rw [merge, mem_foldl_merge]
    constructor
    · rintro (hp | ⟨item, hitem, rfl⟩)
      · exact h.mem p hp
      · exact (seq_of_mem_toList hitem).1
    · intro hp
      obtain ⟨seq, hseq⟩ := Option.isSome_iff_exists.mp
        (Std.ExtTreeMap.mem_iff_isSome_getElem?.mp hp)
      exact .inr ⟨(p, seq), Std.ExtTreeMap.mem_toList_iff_getElem?_eq_some.mpr hseq, rfl⟩
  · intro p
    apply Nat.le_antisymm
    · rw [merge, foldl_merge_le_iff]
      refine ⟨h.seq_le p, fun item hitem hp => ?_⟩
      rw [← hp, (seq_of_mem_toList hitem).2]
    · by_cases hp : p ∈ b
      · obtain ⟨seq, hseq⟩ := Option.isSome_iff_exists.mp
          (Std.ExtTreeMap.mem_iff_isSome_getElem?.mp hp)
        have hitem := Std.ExtTreeMap.mem_toList_iff_getElem?_eq_some.mpr hseq
        have hle := ((foldl_merge_le_iff b.toList a p _).mp (Nat.le_refl _)).2 (p, seq) hitem rfl
        rw [seq_eq, hseq, Option.getD_some]
        exact hle
      · rw [seq_of_not_mem hp]
        exact Nat.zero_le _

/-- The position that gives each of the first partitions a number. -/
def upTo (partitions : Nat) (number : Nat → Nat) : Position :=
  .ofList ((List.range partitions).map fun p => (p, number p))

theorem getElem?_upTo (partitions : Nat) (number : Nat → Nat) (p : Nat) :
    (upTo partitions number)[p]? = if p < partitions then some (number p) else none := by
  split
  next hp =>
    apply Std.ExtTreeMap.getElem?_ofList_of_mem (Std.ReflOrd.compare_self (a := p))
    · rw [List.pairwise_map]
      refine List.nodup_range.imp fun {a b} hne heq => ?_
      exact hne (Std.LawfulEqCmp.eq_of_compare heq)
    · exact List.mem_map_of_mem (f := fun p => (p, number p)) (List.mem_range.mpr hp)
  next hp =>
    apply Std.ExtTreeMap.getElem?_ofList_of_contains_eq_false
    simpa [Function.comp_def] using hp

theorem mem_upTo (partitions : Nat) (number : Nat → Nat) (p : Nat) :
    p ∈ upTo partitions number ↔ p < partitions := by
  rw [Std.ExtTreeMap.mem_iff_isSome_getElem?, getElem?_upTo]
  split <;> simp [*]

theorem seq_upTo {partitions : Nat} (number : Nat → Nat) {p : Nat} (h : p < partitions) :
    (upTo partitions number).seq p = number p := by
  rw [seq_eq, getElem?_upTo, if_pos h, Option.getD_some]

theorem seq_upTo_le (partitions : Nat) (number : Nat → Nat) (p : Nat) :
    (upTo partitions number).seq p ≤ number p := by
  rw [seq_eq, getElem?_upTo]
  split
  · exact Nat.le_refl _
  · exact Nat.zero_le _

theorem mem_toList_upTo {partitions : Nat} {number : Nat → Nat} {item : Nat × Nat} :
    item ∈ (upTo partitions number).toList ↔ item.1 < partitions ∧ number item.1 = item.2 := by
  obtain ⟨p, n⟩ := item
  rw [Std.ExtTreeMap.mem_toList_iff_getElem?_eq_some, getElem?_upTo]
  split <;> simp [*]

/-- The lag behind numbers of the first partitions is their distances in sum. -/
theorem lag_upTo (partitions : Nat) (number : Nat → Nat) (position : Position) :
    lag (upTo partitions number) position
      = ((List.range partitions).map fun p => number p - position.seq p).sum := by
  have hperm : (upTo partitions number).toList.Perm
      ((List.range partitions).map fun p => (p, number p)) := by
    apply (List.perm_ext_iff_of_nodup _ _).mpr
    · rintro ⟨p, n⟩
      rw [mem_toList_upTo]
      simp
    · refine Std.ExtTreeMap.distinct_keys_toList.imp fun {a b} hne heq => hne ?_
      rw [heq, Std.ReflOrd.compare_self]
    · rw [List.Nodup, List.pairwise_map]
      exact List.nodup_range.imp fun {a b} hne heq => hne (congrArg Prod.fst heq)
  have hsum := (hperm.map fun item : Nat × Nat => item.2 - position.seq item.1).sum_eq
  rw [List.map_map] at hsum
  exact hsum

theorem lag_eq_zero {partitions : Nat} {number : Nat → Nat} {position : Position}
    (h : ∀ p < partitions, number p ≤ position.seq p) :
    lag (upTo partitions number) position = 0 := by
  rw [lag_upTo]
  apply List.sum_eq_zero
  intro n hn
  obtain ⟨p, hp, rfl⟩ := List.mem_map.mp hn
  exact Nat.sub_eq_zero_of_le (h p (List.mem_range.mp hp))

theorem le_seq_of_lag_eq_zero {partitions : Nat} {number : Nat → Nat} {position : Position}
    (h : lag (upTo partitions number) position = 0) {p : Nat} (hp : p < partitions) :
    number p ≤ position.seq p := by
  rw [lag_upTo] at h
  have hle := List.le_sum_of_mem (List.mem_map_of_mem
    (f := fun p => number p - position.seq p) (List.mem_range.mpr hp))
  rw [h] at hle
  exact Nat.le_of_sub_eq_zero (Nat.le_zero.mp hle)

/-- Whoever gets ahead in one partition and falls back in none lags less. -/
theorem lag_lt {partitions : Nat} {number : Nat → Nat} {before after : Position}
    (h : Precedes before after)
    (hlt : ∃ p < partitions, before.seq p < after.seq p ∧ after.seq p ≤ number p) :
    lag (upTo partitions number) after < lag (upTo partitions number) before := by
  obtain ⟨p, hp, hahead, hbound⟩ := hlt
  rw [lag_upTo, lag_upTo]
  apply List.sum_lt_sum
  · intro q _
    exact Nat.sub_le_sub_left (h.seq_le q) (number q)
  · exact ⟨p, List.mem_range.mpr hp, by omega⟩

end ViewIndex.Position
