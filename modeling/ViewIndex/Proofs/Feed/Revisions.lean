import Mathlib.Data.List.TakeWhile
import ViewIndex.Proofs.Feed.Shared

/-!
# Revisions

A revision starts with the generation of a document. It counts the events of the document since it
was created: a change and a deletion go on from the revision before, but a document that is written
again after a deletion starts from one. So the generations of a document increase as long as it is
not written again.
-/

namespace ViewIndex

/-- The generation is read back from a revision that starts with it. -/
theorem Revision.generation_text (n : Nat) (rest : String) :
    Revision.generation s!"{n}-{rest}" = n := by
  have hdigits : ∀ c ∈ Nat.toDigits 10 n, c.isDigit = true := fun c hc =>
    Nat.isDigit_of_mem_toDigits (by decide) (by decide) hc
  have htext : (s!"{n}-{rest}").toList = Nat.toDigits 10 n ++ '-' :: rest.toList := by
    rw [String.toList_append, String.toList_append]
    change (Nat.repr n).toList ++ _ ++ _ = _
    rw [Nat.toList_repr, List.append_assoc]
    rfl
  have hdash : ∀ c ∈ Nat.toDigits 10 n, decide (c ≠ '-') = true := by
    intro c hc
    apply decide_eq_true
    rintro rfl
    cases hdigits '-' hc
  have hleading : (s!"{n}-{rest}").toList.takeWhile (· ≠ '-') = Nat.toDigits 10 n := by
    rw [htext, List.takeWhile_append_of_pos hdash]
    simp
  have hmem : '-' ∈ (s!"{n}-{rest}").toList := by
    rw [htext]
    exact List.mem_append_right _ List.mem_cons_self
  rw [generation, hleading, if_pos ⟨hmem, List.all_eq_true.mpr hdigits⟩]
  exact Nat.ofDigitChars_toDigits (by decide) (by decide)

namespace ChangeEvent

def generation (event : ChangeEvent) : Nat := Revision.generation event.revision

/-- How many events there are since the last deletion. -/
def sinceDeleted (events : List ChangeEvent) : Nat :=
  (events.reverse.takeWhile fun event => !event.isDelete).length

theorem sinceDeleted_concat (events : List ChangeEvent) (event : ChangeEvent) :
    sinceDeleted (events ++ [event])
      = if event.isDelete then 0 else sinceDeleted events + 1 := by
  rw [sinceDeleted, List.reverse_append, List.reverse_singleton, List.singleton_append,
    List.takeWhile_cons]
  cases event.isDelete <;> rfl

theorem sinceDeleted_eq_length {events : List ChangeEvent}
    (h : ∀ event ∈ events, event.isDelete = false) : sinceDeleted events = events.length := by
  rw [sinceDeleted, List.takeWhile_eq_self_iff.mpr, List.length_reverse]
  intro event hevent
  rw [h event (List.mem_reverse.mp hevent)]
  rfl

/-- Events of one document whose generations count them since it was created. -/
inductive Counted : List ChangeEvent → Prop where
  | nil : Counted []
  | concat {events : List ChangeEvent} {event : ChangeEvent} (h : Counted events)
      (hgeneration : event.generation = sinceDeleted events + 1) : Counted (events ++ [event])

namespace Counted

variable {events : List ChangeEvent}

/-- A document has the generation of its last event; a deleted one counts as zero. -/
theorem generation_last (h : Counted events) :
    ((events.getLast?.bind document?).map fun doc => Revision.generation doc.revision).getD 0
      = sinceDeleted events := by
  cases h with
  | nil => rfl
  | @concat events event h hgeneration =>
      rw [List.getLast?_concat, Option.bind_some, sinceDeleted_concat, ← hgeneration]
      cases hchange : event.change <;> simp [document?, isDelete, hchange, generation]

theorem generation_getElem (h : Counted events) {i : Nat} {event : ChangeEvent}
    (hevent : events[i]? = some event) :
    event.generation = sinceDeleted (events.take i) + 1 := by
  induction h with
  | nil => cases hevent
  | @concat events last h hgeneration ih =>
      obtain ⟨hi, -⟩ := List.getElem?_eq_some_iff.mp hevent
      rw [List.length_append, List.length_singleton] at hi
      rw [List.take_append_of_le_length (Nat.le_of_lt_succ hi)]
      rcases Nat.lt_succ_iff_lt_or_eq.mp hi with hlt | rfl
      · rw [List.getElem?_append_left hlt] at hevent
        exact ih hevent
      · rw [List.getElem?_concat_length] at hevent
        obtain rfl := Option.some.inj hevent
        rw [List.take_length]
        exact hgeneration

/-- Only the event after a deletion falls back. -/
theorem pairwise_iff (h : Counted events) :
    events.Pairwise (fun a b => a.generation < b.generation)
      ↔ ∀ event ∈ events.dropLast, event.isDelete = false := by
  have hgeneration (i : Nat) (hi : i < events.length) :
      events[i].generation = sinceDeleted (events.take i) + 1 :=
    h.generation_getElem (List.getElem?_eq_getElem hi)
  rw [List.pairwise_iff_getElem]
  constructor
  · intro hincreasing event hevent
    obtain ⟨i, hi, rfl⟩ := List.getElem_of_mem hevent
    rw [List.getElem_dropLast]
    rw [List.length_dropLast] at hi
    have hlt := hincreasing i (i + 1) (by omega) (by omega) (Nat.lt_succ_self i)
    rw [hgeneration, hgeneration, List.take_succ_eq_append_getElem (by omega),
      sinceDeleted_concat] at hlt
    cases hdelete : events[i].isDelete with
    | false => rfl
    | true =>
        rw [hdelete, if_pos rfl] at hlt
        omega
  · intro hkept i j hi hj hij
    have hcount (k : Nat) (hk : k < events.length) : events[k].generation = k + 1 := by
      rw [hgeneration k hk, sinceDeleted_eq_length, List.length_take, Nat.min_eq_left hk.le]
      intro event hevent
      apply hkept event
      rw [List.dropLast_eq_take]
      exact List.take_subset_take_left events (Nat.le_sub_one_of_lt hk) hevent
    rw [hcount i hi, hcount j hj]
    exact Nat.succ_lt_succ hij

end Counted

end ChangeEvent

namespace MemoryStore

open ChangeEvent (Counted sinceDeleted)

variable {store : MemoryStore}

/-- The events of a document in their order. -/
def eventsOf (store : MemoryStore) (docId : String) : List ChangeEvent :=
  (store.log (store.partitionOf docId)).toList.filter fun event => event.docId = docId

theorem eventsOf_append (h : store.Numbered) (docId revision : String) (change : Change)
    (other : String) :
    ∃ event, event.revision = revision ∧ (store.append docId revision change).eventsOf other
      = if other = docId then store.eventsOf other ++ [event] else store.eventsOf other := by
  refine ⟨⟨store.partitionOf docId, store.tail (store.partitionOf docId) + 1, docId, revision,
    change⟩, rfl, ?_⟩
  change ((store.append docId revision change).log (store.partitionOf other)).toList.filter _ = _
  rw [log_append h]
  by_cases hother : other = docId
  · subst hother
    rw [if_pos rfl, if_pos rfl, Array.toList_push, List.filter_append]
    simp [eventsOf]
  · rw [if_neg hother]
    split
    next hsame =>
      rw [Array.toList_push, List.filter_append]
      simp [eventsOf, Ne.symm hother]
    next => rfl

/-- The next generation of a document counts its events since it was created. -/
theorem nextGeneration_eq (h : store.WellFormed) {docId : String}
    (hcounted : Counted (store.eventsOf docId)) :
    store.nextGeneration docId = sinceDeleted (store.eventsOf docId) + 1 := by
  rw [nextGeneration, get?, h.docs, lastEvent?_tail h.toNumbered, ← hcounted.generation_last]
  rfl

theorem counted_append (h : store.WellFormed)
    (hcounted : ∀ docId, Counted (store.eventsOf docId)) {docId revision : String}
    (hnext : Revision.generation revision = store.nextGeneration docId) (change : Change)
    (docs : Std.ExtTreeMap String Document) (other : String) :
    Counted (eventsOf { store.append docId revision change with docs } other) := by
  obtain ⟨event, hrevision, hevents⟩ :=
    eventsOf_append h.toNumbered docId revision change other
  change Counted ((store.append docId revision change).eventsOf other)
  rw [hevents]
  split
  next heq =>
    subst heq
    refine (hcounted other).concat ?_
    rw [ChangeEvent.generation, hrevision, hnext, nextGeneration_eq h (hcounted other)]
  next => exact hcounted other

theorem counted_mutate (h : store.WellFormed) (hcounted : ∀ docId, Counted (store.eventsOf docId))
    (mutation : Mutation) (docId : String) : Counted ((store.mutate mutation).eventsOf docId) := by
  cases mutation with
  | put written content =>
      exact counted_append h hcounted (Revision.generation_text _ _) _ _ docId
  | delete deleted =>
      change Counted ((store.delete deleted).1.eventsOf docId)
      unfold delete
      split
      next => exact hcounted docId
      next =>
        have htext : s!"{store.nextGeneration deleted}-deleted"
            = toString (store.nextGeneration deleted) ++ "-" ++ "deleted" := by
          rw [String.append_assoc]
          rfl
        have hnext := Revision.generation_text (store.nextGeneration deleted) "deleted"
        exact counted_append h hcounted ((congrArg _ htext).trans hnext) _ _ docId

theorem counted_mutateAll (h : store.WellFormed)
    (hcounted : ∀ docId, Counted (store.eventsOf docId)) (writes : List Mutation) (docId : String) :
    Counted ((store.mutateAll writes).eventsOf docId) := by
  induction writes generalizing store with
  | nil => exact hcounted docId
  | cons mutation rest ih => exact ih (h.mutate mutation) (counted_mutate h hcounted mutation)

/-- After any writes to an empty store, the generation of each event of a document is the number of
its events since it was created. So the generations increase along the events of the document if and
only if it is not written again after it was deleted. -/
theorem generations_of_writes (partitions : Nat) (epoch : UInt64) (writes : List Mutation)
    (docId : String) :
    let events := ((empty partitions epoch).mutateAll writes).eventsOf docId
    (∀ (i : Nat) event, events[i]? = some event →
      event.generation = sinceDeleted (events.take i) + 1) ∧
    (events.Pairwise (fun a b => a.generation < b.generation)
      ↔ ∀ event ∈ events.dropLast, event.isDelete = false) := by
  intro events
  have hcounted : Counted events := by
    apply counted_mutateAll (wellFormed_empty partitions epoch)
    intro docId
    rw [eventsOf, log_empty]
    exact .nil
  exact ⟨fun i event hevent => hcounted.generation_getElem hevent, hcounted.pairwise_iff⟩

/-- A document that is written again after it was deleted starts from one. -/
theorem not_increasing_rewritten :
    ¬ (((empty 1 0).mutateAll [.put "a" .null, .delete "a", .put "a" .null]).eventsOf "a").Pairwise
      fun a b => a.generation < b.generation := by
  decide +kernel

end MemoryStore

end ViewIndex
