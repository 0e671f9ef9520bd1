import ViewIndex.Proofs.Feed.Log
import ViewIndex.Proofs.Feed.Position

/-!
# Feeds of a shared store

Others may write to a store while an indexer works. All that an indexer can notice of this is that
the store has changed whenever the feed is asked for something, so a `SharedFeed` answers from its
store after any writes. A `MemoryStore` is such a feed by itself, to which nobody else writes; a
`BusyStore` knows the writes that are to come.
-/

namespace ViewIndex

namespace MemoryStore

def mutateAll (store : MemoryStore) (writes : List Mutation) : MemoryStore :=
  writes.foldl mutate store

theorem mutateAll_spec {store : MemoryStore} (h : store.WellFormed) (writes : List Mutation) :
    (store.mutateAll writes).WellFormed ∧ Extends store (store.mutateAll writes) := by
  induction writes generalizing store with
  | nil => exact ⟨h, .refl store⟩
  | cons mutation rest ih =>
      obtain ⟨hwell, hextends⟩ := ih (h.mutate mutation)
      exact ⟨hwell, (extends_mutate h mutation).trans hextends⟩

end MemoryStore

open MemoryStore (Extends)

/-- A feed that answers from a memory store, to which others may write before it answers. -/
class SharedFeed (φ : Type) extends ChangeFeed φ where
  backing : φ → MemoryStore
  partitions_eq : ∀ feed, partitions feed = (backing feed).partitions
  tail_eq : ∀ feed partition, tail feed partition = (backing feed).tail partition
  read_eq : ∀ feed partition after limit,
    (∃ writes, backing (read feed partition after limit).2 = (backing feed).mutateAll writes) ∧
      (read feed partition after limit).1
        = (backing (read feed partition after limit).2).read partition after limit
  listAll_eq : ∀ feed, (∃ writes, backing (listAll feed).2 = (backing feed).mutateAll writes) ∧
    (listAll feed).1 = .ok (backing (listAll feed).2).listAll

instance : SharedFeed MemoryStore where
  backing := id
  partitions_eq _ := rfl
  tail_eq _ _ := rfl
  read_eq _ _ _ _ := ⟨⟨[], rfl⟩, rfl⟩
  listAll_eq _ := ⟨⟨[], rfl⟩, rfl⟩

/-- A store with the writes that others are going to make, each batch before the next answer. -/
structure BusyStore where
  store : MemoryStore
  pending : List (List Mutation)

namespace BusyStore

def advance (busy : BusyStore) : BusyStore :=
  ⟨busy.store.mutateAll (busy.pending.headD []), busy.pending.tail⟩

instance : ChangeFeed BusyStore where
  partitions busy := busy.store.partitions
  epoch busy := busy.store.epoch
  read busy partition after limit := (busy.advance.store.read partition after limit, busy.advance)
  tail busy partition := busy.store.tail partition
  listAll busy := (.ok busy.advance.store.listAll, busy.advance)

instance : SharedFeed BusyStore where
  backing := store
  partitions_eq _ := rfl
  tail_eq _ _ := rfl
  read_eq _ _ _ _ := ⟨⟨_, rfl⟩, rfl⟩
  listAll_eq _ := ⟨⟨_, rfl⟩, rfl⟩

end BusyStore

namespace SharedFeed

variable {φ : Type} [SharedFeed φ] {feed : φ}

theorem tailPosition_eq (feed : φ) : ChangeFeed.tailPosition feed
    = .upTo (backing feed).partitions (backing feed).tail := by
  rw [ChangeFeed.tailPosition, Position.upTo, partitions_eq]
  simp only [tail_eq]

theorem read_spec (h : (backing feed).WellFormed) (partition after limit : Nat) :
    (backing (ChangeFeed.read feed partition after limit).2).WellFormed ∧
      Extends (backing feed) (backing (ChangeFeed.read feed partition after limit).2) := by
  obtain ⟨⟨writes, hwrites⟩, -⟩ := read_eq feed partition after limit
  rw [hwrites]
  exact MemoryStore.mutateAll_spec h writes

theorem listAll_spec (h : (backing feed).WellFormed) :
    (backing (ChangeFeed.listAll feed).2).WellFormed ∧
      Extends (backing feed) (backing (ChangeFeed.listAll feed).2) := by
  obtain ⟨⟨writes, hwrites⟩, -⟩ := listAll_eq feed
  rw [hwrites]
  exact MemoryStore.mutateAll_spec h writes

end SharedFeed

end ViewIndex
