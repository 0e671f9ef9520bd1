import ViewIndex.Indexer.Basic
import ViewIndex.Proofs.Feed.Position
import ViewIndex.Proofs.Feed.Shared

/-!
# Reading a batch

A batch takes from each partition the events from its position up to some later number, so that the
position behind the batch tells which events it has. That stays true when the store is written to
between two partitions, because logs only grow.
-/

namespace ViewIndex

namespace MemoryStore

variable {store : MemoryStore}

/-- The events of a partition behind one number, up to another. -/
def chunk (store : MemoryStore) (p start stop : Nat) : List ChangeEvent :=
  ((store.log p).toList.drop start).take (stop - start)

theorem length_chunk (p start stop : Nat) :
    (store.chunk p start stop).length = min (stop - start) (store.tail p - start) := by
  simp [chunk, tail]

theorem chunk_length (store : MemoryStore) (p start stop : Nat) :
    store.chunk p start (start + (store.chunk p start stop).length) = store.chunk p start stop := by
  rw [length_chunk, chunk, chunk, List.take_eq_take_iff, List.length_drop, Array.length_toList,
    tail]
  omega

theorem take_append_chunk (p : Nat) {start stop : Nat} (h : start ≤ stop) :
    (store.log p).toList.take start ++ store.chunk p start stop
      = (store.log p).toList.take stop := by
  have hstop : stop = start + (stop - start) := by omega
  rw [chunk]
  conv_rhs => rw [hstop, List.take_add]

theorem Extends.chunk_eq {later : MemoryStore} (h : Extends store later) {p stop : Nat}
    (hstop : stop ≤ store.tail p) (start : Nat) :
    later.chunk p start stop = store.chunk p start stop := by
  obtain ⟨rest, hrest⟩ := h.log p
  have hlen : (store.log p).toList.length = store.tail p := rfl
  rw [chunk, chunk, ← hrest, List.drop_append, List.take_append_of_le_length]
  rw [List.length_drop]
  omega

theorem partitionOf_of_mem_chunk (h : store.Numbered) {p start stop : Nat} {event : ChangeEvent}
    (hmem : event ∈ store.chunk p start stop) : store.partitionOf event.docId = p := by
  obtain ⟨i, hi⟩ := List.getElem?_of_mem (List.mem_of_mem_drop (List.mem_of_mem_take hmem))
  exact (h.event p i event hi).2

/-- The last event of a chunk has the number up to which the chunk goes. -/
theorem seq_of_getLast? (h : store.Numbered) {p start stop : Nat} {event : ChangeEvent}
    (hlast : (store.chunk p start stop).getLast? = some event) :
    event.seq = start + (store.chunk p start stop).length := by
  rw [List.getLast?_eq_getElem?] at hlast
  obtain ⟨hlt, -⟩ := List.getElem?_eq_some_iff.mp hlast
  rw [length_chunk] at hlt
  generalize hi : (store.chunk p start stop).length - 1 = i at hlast
  rw [length_chunk] at hi
  rw [chunk, List.getElem?_take_of_lt (by omega), List.getElem?_drop] at hlast
  rw [(h.event p _ event hlast).1, length_chunk]
  omega

theorem read_eq (h : store.Numbered) {p : Nat} (hp : p < store.partitions) (after limit : Nat) :
    store.read p after limit = .ok (store.chunk p after (after + limit)) := by
  have hlt : p < store.logs.size := by
    rw [h.size_logs]
    exact hp
  have hlog : store.logs[p]? = some (store.log p) := by
    simp [log, Array.getD_eq_getD_getElem?, hlt]
  rw [read, hlog]
  change Except.ok _ = _
  rw [Array.toList_extract, List.extract_eq_take_drop]
  rfl

end MemoryStore

open MemoryStore (Extends)

/-- The position behind events of a partition, if there are any. -/
def Position.behind (position : Position) (p : Nat) (events : List ChangeEvent) : Position :=
  match events.getLast? with
  | some last => position.insert p last.seq
  | none => position

theorem Position.mem_behind_iff (position : Position) (p q : Nat) (events : List ChangeEvent) :
    q ∈ position.behind p events ↔ q ∈ position ∨ p = q ∧ events ≠ [] := by
  unfold behind
  split
  next last hlast =>
    have hne : events ≠ [] := by
      rintro rfl
      cases hlast
    simp [Std.ExtTreeMap.mem_insert, hne, or_comm]
  next hnone => simp [List.getLast?_eq_none_iff.mp hnone]

/-- The position behind a chunk is where the chunk ends. -/
theorem Position.seq_behind {position : Position} {store : MemoryStore} (h : store.Numbered)
    {p start stop : Nat} (hstart : position.seq p = start) (q : Nat) :
    (position.behind p (store.chunk p start stop)).seq q
      = if p = q then start + (store.chunk p start stop).length else position.seq q := by
  unfold behind
  split
  next last hlast => rw [Position.seq_insert, MemoryStore.seq_of_getLast? h hlast]
  next hnone =>
    rw [List.getLast?_eq_none_iff.mp hnone]
    split
    next hpq => rw [← hpq, hstart, List.length_nil, Nat.add_zero]
    next => rfl

/-- What reading some partitions behind a position comes to. The store has grown from `before` to
`after` meanwhile, and the position from `first` to `last`. -/
structure Batch (position first last : Position) (limit : Nat) (partitions : List Nat)
    (before after : MemoryStore) (events : List ChangeEvent) : Prop where
  wellFormed : after.WellFormed
  extends_before : Extends before after
  events_eq : events = partitions.flatMap fun p => after.chunk p (position.seq p) (last.seq p)
  le_last : ∀ p ∈ partitions, position.seq p ≤ last.seq p
  last_le : ∀ p ∈ partitions, last.seq p ≤ after.tail p
  others : ∀ p ∉ partitions, last.seq p = first.seq p
  mem_last : ∀ p ∈ last, p ∈ first ∨ p ∈ partitions
  mem_of_mem : ∀ p ∈ first, p ∈ last
  /-- As much is read as there is and as may be. -/
  progress : ∀ p ∈ partitions,
    min limit (before.tail p - position.seq p) ≤ last.seq p - position.seq p

theorem Batch.precedes {position last : Position} {limit : Nat} {partitions : List Nat}
    {before after : MemoryStore} {events : List ChangeEvent}
    (h : Batch position position last limit partitions before after events) :
    position.Precedes last where
  mem := h.mem_of_mem
  seq_le p := by
    by_cases hp : p ∈ partitions
    · exact h.le_last p hp
    · exact Nat.le_of_eq (h.others p hp).symm

theorem Batch.events_eq_nil_iff {position first last : Position} {limit : Nat}
    {partitions : List Nat} {before after : MemoryStore} {events : List ChangeEvent}
    (h : Batch position first last limit partitions before after events) :
    events = [] ↔ ∀ p ∈ partitions, last.seq p ≤ position.seq p := by
  rw [h.events_eq, List.flatMap_eq_nil_iff]
  apply forall₂_congr
  intro p hp
  have hle := h.last_le p hp
  rw [← List.length_eq_zero_iff, MemoryStore.length_chunk]
  omega

section

variable {position last : Position} {limit : Nat} {before after : MemoryStore}
  {events : List ChangeEvent}
  (h : Batch position position last limit (List.range before.partitions) before after events)
include h

/-- Partitions beyond the last one are not read, and stay where they are. -/
theorem Batch.seq_le_tail (hle : ∀ p, position.seq p ≤ before.tail p) (p : Nat) :
    last.seq p ≤ after.tail p := by
  by_cases hp : p < before.partitions
  · exact h.last_le p (List.mem_range.mpr hp)
  · rw [h.others p (mt List.mem_range.mp hp)]
    exact (hle p).trans (h.extends_before.tail_le p)

theorem Batch.lt_of_mem (hlt : ∀ p ∈ position, p < before.partitions) :
    ∀ p ∈ last, p < after.partitions := by
  intro p hp
  rw [h.extends_before.partitions_eq]
  rcases h.mem_last p hp with hp | hp
  · exact hlt p hp
  · exact List.mem_range.mp hp

end

/-- A batch of partitions with what was read before of another one. -/
theorem Batch.cons {position first last : Position} {limit p : Nat} {rest : List Nat}
    {before between after : MemoryStore} {later : List ChangeEvent} (hp : p ∉ rest)
    (hfirst : first.seq p = position.seq p) (hle : position.seq p ≤ before.tail p)
    (hbetween : between.WellFormed) (hextends : Extends before between)
    (hbatch : Batch position
      (first.behind p (between.chunk p (position.seq p) (position.seq p + limit))) last limit rest
      between after later) :
    Batch position first last limit (p :: rest) before after
      (between.chunk p (position.seq p) (position.seq p + limit) ++ later) := by
  generalize hevents : between.chunk p (position.seq p) (position.seq p + limit) = events
    at hbatch ⊢
  have hbehind : ∀ q, (first.behind p events).seq q
      = if p = q then position.seq p + events.length else first.seq q := by
    intro q
    rw [← hevents]
    exact Position.seq_behind hbetween.toNumbered hfirst q
  have hlast : last.seq p = position.seq p + events.length := by
    rw [hbatch.others p hp, hbehind, if_pos rfl]
  have hlength : events.length = min limit (between.tail p - position.seq p) := by
    rw [← hevents, MemoryStore.length_chunk, Nat.add_sub_cancel_left]
  have htail := hextends.tail_le p
  have htail' := hbatch.extends_before.tail_le p
  -- What was read of the first partition is still there at the end.
  have hchunk : after.chunk p (position.seq p) (last.seq p) = events := by
    rw [hlast, hbatch.extends_before.chunk_eq (by omega), ← hevents, MemoryStore.chunk_length]
  refine ⟨hbatch.wellFormed, hextends.trans hbatch.extends_before, ?_, ?_, ?_, ?_, ?_, ?_, ?_⟩
  · rw [List.flatMap_cons, hchunk, hbatch.events_eq]
  · exact List.forall_mem_cons.mpr ⟨by omega, hbatch.le_last⟩
  · exact List.forall_mem_cons.mpr ⟨by omega, hbatch.last_le⟩
  · intro q hq
    rw [List.mem_cons, not_or] at hq
    rw [hbatch.others q hq.2, hbehind, if_neg (Ne.symm hq.1)]
  · intro q hq
    rw [List.mem_cons]
    rcases hbatch.mem_last q hq with hq | hq
    · rcases (Position.mem_behind_iff _ _ _ _).mp hq with hq | ⟨rfl, -⟩
      · exact .inl hq
      · exact .inr (.inl rfl)
    · exact .inr (.inr hq)
  · intro q hq
    exact hbatch.mem_of_mem q ((Position.mem_behind_iff _ _ _ _).mpr (.inl hq))
  · refine List.forall_mem_cons.mpr ⟨by omega, fun q hq => ?_⟩
    have hgrown := hextends.tail_le q
    have hprogress := hbatch.progress q hq
    omega

namespace Indexer

theorem readPartitions_of_read {φ : Type} [ChangeFeed φ] {position next : Position}
    {limit p : Nat} {rest : List Nat} {feed between : φ} {events : List ChangeEvent}
    (h : ChangeFeed.read feed p (position.seq p) limit = (.ok events, between)) :
    readPartitions position limit (p :: rest) next feed
      = match readPartitions position limit rest (next.behind p events) between with
        | (.error e, feed) => (.error e, feed)
        | (.ok (later, next), feed) => (.ok (events ++ later, next), feed) := by
  rw [readPartitions, h]
  rfl

variable {φ : Type} [SharedFeed φ]

open SharedFeed (backing)

theorem readPartitions_cons (position next : Position) (limit : Nat) {p : Nat} (rest : List Nat)
    {feed : φ} (hwell : (backing feed).WellFormed) (hp : p < (backing feed).partitions) :
    ∃ between : φ, (backing between).WellFormed ∧ Extends (backing feed) (backing between) ∧
      ∀ later last final,
        let events := (backing between).chunk p (position.seq p) (position.seq p + limit)
        readPartitions position limit rest (next.behind p events) between
            = (.ok (later, last), final) →
          readPartitions position limit (p :: rest) next feed
            = (.ok (events ++ later, last), final) := by
  obtain ⟨hwell', hextends⟩ := SharedFeed.read_spec hwell p (position.seq p) limit
  obtain ⟨-, hread⟩ := SharedFeed.read_eq feed p (position.seq p) limit
  rw [MemoryStore.read_eq hwell'.toNumbered (by rw [hextends.partitions_eq]; exact hp)] at hread
  refine ⟨_, hwell', hextends, fun later last final hrest => ?_⟩
  rw [readPartitions_of_read (Prod.ext hread rfl), hrest]

/-- Reading partitions one after the other, each once. -/
theorem readPartitions_spec {position : Position} (limit : Nat) {partitions : List Nat}
    (hnodup : partitions.Nodup) (first : Position) {feed : φ} (hwell : (backing feed).WellFormed)
    (hpartitions : ∀ p ∈ partitions, p < (backing feed).partitions ∧
      position.seq p ≤ (backing feed).tail p ∧ first.seq p = position.seq p) :
    ∃ events last final, readPartitions position limit partitions first feed
        = (.ok (events, last), final) ∧
      Batch position first last limit partitions (backing feed) (backing final) events := by
  induction partitions generalizing first feed with
  | nil => refine ⟨[], first, feed, rfl, hwell, .refl _, rfl, ?_, ?_, ?_, ?_, ?_, ?_⟩ <;> simp
  | cons p rest ih =>
      obtain ⟨hp, hrest⟩ := List.nodup_cons.mp hnodup
      obtain ⟨hlt, hle, hfirst⟩ := hpartitions p List.mem_cons_self
      obtain ⟨between, hwell', hextends, hread⟩ :=
        readPartitions_cons position first limit rest hwell hlt
      let next := first.behind p
        ((backing between).chunk p (position.seq p) (position.seq p + limit))
      obtain ⟨later, last, final, hfinal, hbatch⟩ := ih hrest next hwell' fun q hq => by
        obtain ⟨hlt, hle, hfirst'⟩ := hpartitions q (List.mem_cons_of_mem _ hq)
        have hne : p ≠ q := by
          rintro rfl
          exact hp hq
        rw [hextends.partitions_eq, Position.seq_behind hwell'.toNumbered hfirst q, if_neg hne]
        exact ⟨hlt, hle.trans (hextends.tail_le q), hfirst'⟩
      exact ⟨_, last, final, hread later last final hfinal,
        hbatch.cons hp hfirst hle hwell' hextends⟩

end Indexer

end ViewIndex
