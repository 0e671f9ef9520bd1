import Mathlib.Data.List.Infix
import ViewIndex.Feed.Memory
import ViewIndex.Proofs.Lists

/-!
# Logs of a memory store

Every write appends an event to the log of one partition, and the documents are what the last events
left of them. Logs only grow, so what they say about the events up to some number does not change
under later writes.
-/

namespace ViewIndex

/-- What is done to the documents of a store. -/
inductive Mutation where
  | put (docId : String) (content : Json)
  | delete (docId : String)

namespace MemoryStore

def mutate (store : MemoryStore) : Mutation → MemoryStore
  | .put docId content => (store.put docId content).1
  | .delete docId => (store.delete docId).1

/-- The last event of a document among those with numbers up to a bound. -/
def lastEvent? (store : MemoryStore) (docId : String) (bound : Nat) : Option ChangeEvent :=
  ((store.log (store.partitionOf docId)).toList.filter fun event =>
    event.docId = docId ∧ event.seq ≤ bound).getLast?

/-- Events are numbered from one and lie in the partition of their documents. -/
structure Numbered (store : MemoryStore) : Prop where
  partitions_pos : 0 < store.partitions
  size_logs : store.logs.size = store.partitions
  event : ∀ p i event, (store.log p).toList[i]? = some event →
    event.seq = i + 1 ∧ store.partitionOf event.docId = p

/-- A document is there if its last event left it, and as that event left it. -/
structure WellFormed (store : MemoryStore) : Prop extends store.Numbered where
  docs : ∀ docId, store.docs[docId]?
    = (store.lastEvent? docId (store.tail (store.partitionOf docId))).bind ChangeEvent.document?

/-- The logs of a store go on in another one. -/
structure Extends (store later : MemoryStore) : Prop where
  partitions_eq : later.partitions = store.partitions
  log : ∀ p, (store.log p).toList <+: (later.log p).toList

namespace Extends

variable {a b c : MemoryStore}

theorem refl (a : MemoryStore) : Extends a a := ⟨rfl, fun _ => List.prefix_rfl⟩

theorem trans (hab : Extends a b) (hbc : Extends b c) : Extends a c where
  partitions_eq := hbc.partitions_eq.trans hab.partitions_eq
  log p := (hab.log p).trans (hbc.log p)

theorem partitionOf_eq (h : Extends a b) (docId : String) :
    b.partitionOf docId = a.partitionOf docId := by
  rw [partitionOf, partitionOf, h.partitions_eq]

theorem tail_le (h : Extends a b) (p : Nat) : a.tail p ≤ b.tail p := (h.log p).length_le

end Extends

theorem partitionOf_lt {store : MemoryStore} (h : store.Numbered) (docId : String) :
    store.partitionOf docId < store.partitions :=
  Nat.mod_lt _ h.partitions_pos

/-- The events with numbers behind one and up to another lie next to each other. -/
theorem filter_seq_log {store : MemoryStore} (h : store.Numbered) (p start stop : Nat) :
    (store.log p).toList.filter (fun event => start < event.seq ∧ event.seq ≤ stop)
      = ((store.log p).toList.drop start).take (stop - start) := by
  apply filter_eq_take_drop
  intro i event hget
  rw [(h.event p i event hget).1, decide_eq_true_eq]
  omega

/-- The events with numbers up to a bound are the first ones. -/
theorem lastEvent?_eq {store : MemoryStore} (h : store.Numbered) (docId : String) (bound : Nat) :
    store.lastEvent? docId bound
      = (((store.log (store.partitionOf docId)).toList.take bound).filter fun event =>
          event.docId = docId).getLast? := by
  have hfirst := filter_seq_log h (store.partitionOf docId) 0 bound
  rw [List.drop_zero, Nat.sub_zero] at hfirst
  rw [lastEvent?, ← hfirst, List.filter_filter]
  congr 1
  apply List.filter_congr
  intro event hevent
  obtain ⟨i, hget⟩ := List.getElem?_of_mem hevent
  simp [(h.event _ i event hget).1]

theorem lastEvent?_tail {store : MemoryStore} (h : store.Numbered) (docId : String) :
    store.lastEvent? docId (store.tail (store.partitionOf docId))
      = ((store.log (store.partitionOf docId)).toList.filter fun event =>
          event.docId = docId).getLast? := by
  rw [lastEvent?_eq h, tail, ← Array.length_toList, List.take_length]

/-- What was the last event up to some number remains so while the log grows. -/
theorem Extends.lastEvent?_eq {store later : MemoryStore} (hstore : store.Numbered)
    (hlater : later.Numbered) (h : Extends store later) {docId : String} {bound : Nat}
    (hbound : bound ≤ store.tail (store.partitionOf docId)) :
    later.lastEvent? docId bound = store.lastEvent? docId bound := by
  obtain ⟨rest, hrest⟩ := h.log (store.partitionOf docId)
  rw [MemoryStore.lastEvent?_eq hlater, MemoryStore.lastEvent?_eq hstore, h.partitionOf_eq, ← hrest,
    List.take_append_of_le_length hbound]

/-! ## Writes -/

theorem log_empty (partitions : Nat) (epoch : UInt64) (p : Nat) :
    (empty partitions epoch).log p = #[] := by
  simp only [empty, log, Array.getD_eq_getD_getElem?, Array.getElem?_replicate]
  split <;> rfl

theorem wellFormed_empty (partitions : Nat) (epoch : UInt64) :
    (empty partitions epoch).WellFormed where
  partitions_pos := Nat.le_max_right partitions 1
  size_logs := Array.size_replicate
  event p i event h := by simp [log_empty] at h
  docs docId := by
    rw [lastEvent?, log_empty]
    exact Std.ExtTreeMap.getElem?_empty

section Append

variable {store : MemoryStore} {docId revision : String} {change : Change}

theorem log_append (h : store.Numbered) (p : Nat) :
    (store.append docId revision change).log p
      = if p = store.partitionOf docId then
          (store.log p).push ⟨p, store.tail p + 1, docId, revision, change⟩
        else store.log p := by
  have hlt : store.partitionOf docId < store.logs.size := by
    rw [h.size_logs]
    exact partitionOf_lt h docId
  by_cases hp : p = store.partitionOf docId
  · subst hp
    simp [append, log, tail, Array.getD_eq_getD_getElem?, hlt, Array.getElem_modify_self]
  · simp [append, log, Array.getD_eq_getD_getElem?, Array.getElem?_modify, hp, Ne.symm hp]

theorem extends_append (h : store.Numbered) (docs : Std.ExtTreeMap String Document) :
    Extends store { store.append docId revision change with docs } where
  partitions_eq := rfl
  log p := by
    change (store.log p).toList <+: ((store.append docId revision change).log p).toList
    rw [log_append h]
    split
    · rw [Array.toList_push]
      exact List.prefix_append _ _
    · exact List.prefix_rfl

theorem numbered_append (h : store.Numbered) (docId revision : String) (change : Change) :
    (store.append docId revision change).Numbered where
  partitions_pos := h.partitions_pos
  size_logs := Array.size_modify.trans h.size_logs
  event p i event hget := by
    rw [log_append h] at hget
    split at hget
    next hp =>
      rw [Array.toList_push, List.getElem?_append, List.getElem?_singleton] at hget
      split at hget
      next => exact h.event p i event hget
      next hi =>
        split at hget
        next hzero =>
          cases hget
          have hlast : store.tail p = i := by
            rw [tail, ← Array.length_toList]
            omega
          exact ⟨congrArg (· + 1) hlast, hp.symm⟩
        next => cases hget
    next => exact h.event p i event hget

theorem lastEvent?_append_self (h : store.Numbered) :
    (store.append docId revision change).lastEvent? docId
        ((store.append docId revision change).tail (store.partitionOf docId))
      = some ⟨store.partitionOf docId, store.tail (store.partitionOf docId) + 1, docId, revision,
          change⟩ := by
  refine (lastEvent?_tail (numbered_append h docId revision change) docId).trans ?_
  change (((store.append docId revision change).log (store.partitionOf docId)).toList.filter
    _).getLast? = _
  rw [log_append h, if_pos rfl, Array.toList_push, List.filter_append]
  simp

theorem lastEvent?_append_of_ne (h : store.Numbered) {other : String} (hne : other ≠ docId) :
    (store.append docId revision change).lastEvent? other
        ((store.append docId revision change).tail (store.partitionOf other))
      = store.lastEvent? other (store.tail (store.partitionOf other)) := by
  refine (lastEvent?_tail (numbered_append h docId revision change) other).trans ?_
  change (((store.append docId revision change).log (store.partitionOf other)).toList.filter
    _).getLast? = _
  rw [log_append h, lastEvent?_tail h]
  split
  · rw [Array.toList_push, List.filter_append]
    simp [Ne.symm hne]
  · rfl

/-- An event is appended together with what it does to the documents. -/
theorem wellFormed_append (h : store.WellFormed) {docs : Std.ExtTreeMap String Document}
    (hdocs : ∀ other, docs[other]? = if other = docId then
      ChangeEvent.document? ⟨0, 0, docId, revision, change⟩ else store.docs[other]?) :
    WellFormed { store.append docId revision change with docs } where
  toNumbered := by
    obtain ⟨hpos, hsize, hevent⟩ := numbered_append h.toNumbered docId revision change
    exact ⟨hpos, hsize, hevent⟩
  docs other := by
    change docs[other]? = ((store.append docId revision change).lastEvent? other
      ((store.append docId revision change).tail (store.partitionOf other))).bind _
    rw [hdocs]
    split
    next heq =>
      subst heq
      rw [lastEvent?_append_self h.toNumbered]
      cases change <;> rfl
    next hne => rw [lastEvent?_append_of_ne h.toNumbered hne, h.docs]

end Append

theorem wellFormed_put {store : MemoryStore} (h : store.WellFormed) (docId : String)
    (content : Json) : (store.put docId content).1.WellFormed := by
  apply wellFormed_append h
  intro other
  rw [Std.ExtTreeMap.getElem?_insert]
  by_cases hother : other = docId
  · subst hother
    simp [ChangeEvent.document?]
  · simp [hother, Ne.symm hother]

theorem wellFormed_delete {store : MemoryStore} (h : store.WellFormed) (docId : String) :
    (store.delete docId).1.WellFormed := by
  unfold delete
  split
  next => exact h
  next =>
    apply wellFormed_append h
    intro other
    rw [Std.ExtTreeMap.getElem?_erase]
    by_cases hother : other = docId
    · subst hother
      simp [ChangeEvent.document?]
    · simp [hother, Ne.symm hother]

theorem WellFormed.mutate {store : MemoryStore} (h : store.WellFormed) (mutation : Mutation) :
    (store.mutate mutation).WellFormed := by
  cases mutation with
  | put docId content => exact wellFormed_put h docId content
  | delete docId => exact wellFormed_delete h docId

theorem extends_mutate {store : MemoryStore} (h : store.WellFormed) (mutation : Mutation) :
    Extends store (store.mutate mutation) := by
  cases mutation with
  | put docId content => exact extends_append h.toNumbered _
  | delete docId =>
      change Extends store (store.delete docId).1
      unfold delete
      split
      next => exact .refl store
      next => exact extends_append h.toNumbered _

end MemoryStore

end ViewIndex
