import ViewIndex.Document

/-!
# Change feeds

A feed offers the documents of a store as a whole and their changes as numbered events, partition by
partition.
-/

namespace ViewIndex

/-- Why a feed gives no answer. -/
inductive FeedError where
  | unknownPartition (partition : Nat)
  /-- The feed turns the request down for now. -/
  | refused (reason : String)
deriving DecidableEq, Repr

def FeedError.message : FeedError → String
  | .unknownPartition partition => s!"unknown partition {partition}"
  | .refused reason => reason

/-- What an indexer asks of a document store. Reading may change the state of the feed, for instance
when it answers only after some attempts. -/
class ChangeFeed (φ : Type) where
  partitions : φ → Nat
  /-- The identity of the numbering; positions of another epoch mean nothing. -/
  epoch : φ → UInt64
  /-- At most `limit` events of a partition whose numbers are above `after`, in order. -/
  read : φ → (partition after limit : Nat) → Except FeedError (List ChangeEvent) × φ
  /-- The number of the last event of a partition; zero if it has none. -/
  tail : φ → (partition : Nat) → Nat
  /-- All documents and the position that they correspond to. -/
  listAll : φ → Except FeedError (List Document × Position) × φ

/-- The position behind the last event of every partition. -/
def ChangeFeed.tailPosition {φ : Type} [ChangeFeed φ] (feed : φ) : Position :=
  .ofList ((List.range (partitions feed)).map fun partition => (partition, tail feed partition))

/-- A feed of either of two kinds. -/
instance {α β : Type} [ChangeFeed α] [ChangeFeed β] : ChangeFeed (α ⊕ β) where
  partitions := Sum.elim ChangeFeed.partitions ChangeFeed.partitions
  epoch := Sum.elim ChangeFeed.epoch ChangeFeed.epoch
  read
    | .inl feed, partition, after, limit =>
        (ChangeFeed.read feed partition after limit).map id .inl
    | .inr feed, partition, after, limit =>
        (ChangeFeed.read feed partition after limit).map id .inr
  tail := Sum.elim ChangeFeed.tail ChangeFeed.tail
  listAll
    | .inl feed => (ChangeFeed.listAll feed).map id .inl
    | .inr feed => (ChangeFeed.listAll feed).map id .inr

end ViewIndex
