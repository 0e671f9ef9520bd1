import ViewIndex.Proofs.Store.Refinement
import ViewIndex.Proofs.Tree.Sums

/-!
# Checking a store that adds up numbers

A store whose reducer adds up numbers passes the check after any sequence of writes, unless sums of
numbers have overflowed in opposite directions below one node. There their sum is a NaN, which the
comparison of aggregates takes for damage, though the node carries exactly what is computed anew.
-/

namespace ViewIndex

open Floats

namespace IndexStore

variable {r : Reducer} {store : IndexStore} {contents : Contents}

/-- What the check of a store that adds up numbers finds. -/
structure ChecksSums (store : IndexStore) : Prop where
  /-- Every node carries what is computed anew, whatever the check finds. -/
  agg_eq : ∀ sub ∈ store.current.tree.subtrees,
    sub.agg store.reducer = sub.recomputed store.reducer
  /-- Nothing, unless a value is a NaN or infinities of opposite sign meet. -/
  eq_ok_iff : store.check = .ok () ↔
    (∀ e ∈ store.current.entries, e.amount.isNaN = false) ∧
      ∀ sub ∈ store.current.tree.subtrees, ¬ sub.Collides
  /-- If anything, then a node whose sum is a NaN. -/
  exists_of_eq_error : ∀ error, store.check = .error error →
    ∃ i sub, store.current.tree.subtrees[i]? = some sub ∧ sub.sum.isNaN = true ∧
      error = .aggregateMismatch i
  eq_ok_of_nonneg : (∀ e ∈ store.current.entries, 0.0 ≤ e.amount) → store.check = .ok ()
  eq_ok_of_nonpos : (∀ e ∈ store.current.entries, e.amount ≤ 0.0) → store.check = .ok ()
  eq_ok_of_bounded : store.current.entries.length < 2 ^ 64 →
    (∀ e ∈ store.current.entries, -1e230 ≤ e.amount ∧ e.amount ≤ 1e230) → store.check = .ok ()

theorem Holds.checksSums (h : store.Holds contents) (hr : store.reducer.IsAdding) :
    store.ChecksSums := by
  have hwellFormed := h.reflects.wellFormed
  exact {
    agg_eq := fun sub hsub => (hwellFormed.sound.of_mem_subtrees hsub).agg_eq_recomputed
    eq_ok_iff := by
      rw [h.check_eq, h.entries_eq, hwellFormed.check_eq_ok_iff_isNaN hr, Tree.forall_isNaN_sum_iff]
    exists_of_eq_error := fun error herror =>
      hwellFormed.exists_of_check_eq_error hr (h.check_eq.symm.trans herror)
    eq_ok_of_nonneg := fun hamounts => h.check_eq.trans <|
      hwellFormed.check_eq_ok_of_onSide hr fun e he =>
        (zero_le_iff _).mp (hamounts e (h.entries_eq ▸ he))
    eq_ok_of_nonpos := fun hamounts => h.check_eq.trans <|
      hwellFormed.check_eq_ok_of_onSide hr fun e he =>
        (le_zero_iff _).mp (hamounts e (h.entries_eq ▸ he))
    eq_ok_of_bounded := fun hlength hamounts => by
      rw [h.entries_eq] at hlength hamounts
      exact h.check_eq.trans <| hwellFormed.check_eq_ok_of_within hr hlength fun e he =>
        within_of_le (hamounts e he).1 (hamounts e he).2 }

/-- After any sequence of writes to an empty store that adds up numbers, the check finds nothing but
sums that have become NaNs. -/
theorem checksSums_of_writes (name : String) (hr : r.IsAdding) (writes : List Write)
    (hdistinct : ∀ w ∈ writes, w.Distinct) :
    (writes.foldl write (empty name (some r))).ChecksSums := by
  obtain ⟨hholds, hreducer⟩ := (holds_empty name (some r)).foldl_write hdistinct
  refine hholds.checksSums ?_
  rw [hreducer]
  exact hr

/-! ## Numbers that overflow -/

namespace Overflow

/-- A document with four numbers in the order of their keys, given by their bits. -/
def fourNumbers (b₀ b₁ b₂ b₃ : UInt64) : List Write :=
  [.upsert "a" [(⟨[0]⟩, .number (.real ⟨b₀⟩)), (⟨[1]⟩, .number (.real ⟨b₁⟩)),
    (⟨[2]⟩, .number (.real ⟨b₂⟩)), (⟨[3]⟩, .number (.real ⟨b₃⟩))]]

theorem distinct_fourNumbers (b₀ b₁ b₂ b₃ : UInt64) :
    ∀ w ∈ fourNumbers b₀ b₁ b₂ b₃, w.Distinct := by
  intro w hw
  obtain rfl := List.mem_singleton.mp hw
  trivial

theorem entries_fourNumbers (b₀ b₁ b₂ b₃ : UInt64) :
    ((fourNumbers b₀ b₁ b₂ b₃).foldl write (empty "t" (some r))).current.entries
      = ((fourNumbers b₀ b₁ b₂ b₃).foldl write (empty "t" (some r))).current.tree.toList :=
  ((holds_empty "t" (some r)).foldl_write (distinct_fourNumbers b₀ b₁ b₂ b₃)).1.entries_eq

/-- Four times `10 ^ 308`. -/
def rising : List Write :=
  fourNumbers 0x7fe1ccf385ebc8a0 0x7fe1ccf385ebc8a0 0x7fe1ccf385ebc8a0 0x7fe1ccf385ebc8a0

/-- Twice `10 ^ 308` and twice its negative. -/
def opposed : List Write :=
  fourNumbers 0x7fe1ccf385ebc8a0 0x7fe1ccf385ebc8a0 0xffe1ccf385ebc8a0 0xffe1ccf385ebc8a0

/-- A sum that is infinite is found right. -/
theorem checksSums_of_writes_rising :
    (rising.foldl write (empty "t" (some .sum))).current.tree.sum.isInf = true ∧
      (rising.foldl write (empty "t" (some .sum))).check = .ok () := by
  have hchecks := checksSums_of_writes (r := .sum) "t" trivial rising (distinct_fourNumbers _ _ _ _)
  refine ⟨by decide, hchecks.eq_ok_of_nonneg ?_⟩
  rw [rising, entries_fourNumbers]
  decide

/-- Finite numbers are found wrong if they add up to infinities on both sides of a node. -/
theorem not_check_eq_ok_opposed :
    (∀ w ∈ opposed, w.Distinct) ∧
    (∀ e ∈ (opposed.foldl write (empty "t" (some .sum))).current.entries,
      e.amount.isFinite = true) ∧
    ∀ r ∈ [Reducer.sum, .stats], (opposed.foldl write (empty "t" (some r))).check
      = .error (.aggregateMismatch 1) := by
  refine ⟨distinct_fourNumbers _ _ _ _, ?_, fun r hr => ?_⟩
  · rw [opposed, entries_fourNumbers]
    decide
  · rcases List.mem_pair.mp hr with rfl | rfl <;> decide

end Overflow

end IndexStore

end ViewIndex
