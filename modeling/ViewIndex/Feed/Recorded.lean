import ViewIndex.Feed.Basic

/-!
# Recorded feeds

A recorded feed answers from lists that were given to it, whether or not they fit together: its
listing need not be what its events lead to, and its numbers need not be dense. It may also turn
down a number of requests first.
-/

namespace ViewIndex

/-- A feed that is given word by word. -/
structure RecordedFeed where
  partitions : Nat
  epoch : UInt64
  /-- What a listing of all documents answers. -/
  docs : List Document := []
  /-- The position that comes with the listing. -/
  position : Position := ∅
  /-- The events of all partitions in the order in which they are read. -/
  events : List ChangeEvent := []
  /-- How many readings are turned down before one is answered. -/
  refusedReads : Nat := 0
  /-- How many listings are turned down before one is answered. -/
  refusedLists : Nat := 0

namespace RecordedFeed

def log (feed : RecordedFeed) (partition : Nat) : List ChangeEvent :=
  feed.events.filter (·.partition == partition)

instance : ChangeFeed RecordedFeed where
  partitions := partitions
  epoch := epoch
  read feed partition after limit :=
    if feed.refusedReads = 0 then
      (.ok (((feed.log partition).filter (after < ·.seq)).take limit), feed)
    else (.error (.refused "read refused"), { feed with refusedReads := feed.refusedReads - 1 })
  tail feed partition := ((feed.log partition).getLast?.map ChangeEvent.seq).getD 0
  listAll feed :=
    if feed.refusedLists = 0 then (.ok (feed.docs, feed.position), feed)
    else (.error (.refused "list refused"), { feed with refusedLists := feed.refusedLists - 1 })

end RecordedFeed

end ViewIndex
