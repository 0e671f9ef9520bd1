import ViewIndex.Config.Reading
import ViewIndex.Proofs.Indexer.Publishing
import ViewIndex.Proofs.Storage.Recovery

/-!
# Progress

While nobody writes, a step takes events in and lowers the lag by their number, unless it builds the
index anew, which ends the lag altogether. It takes nothing in if there is nothing left, but also if
batches are to have no events. So the loop of steps always ends, and with batches that may have
events it ends at the end of the feed.
-/

namespace ViewIndex.Indexer

open SharedFeed (backing)

/-! ## The loop of steps -/

section

variable {φ : Type} [ChangeFeed φ]

/-- How a loop of steps ends, however long it takes: the indexer is cancelled, a step fails, or a
step finds nothing; otherwise the loop goes on. -/
inductive StepsTo (now : Nat) : Indexer → φ → Outcome φ Unit → Prop where
  | cancelled {ix : Indexer} {feed : φ} (h : ix.cancelled = true) :
      StepsTo now ix feed ⟨.ok (), ix, feed⟩
  | failed {ix later : Indexer} {feed final : φ} {e : IndexerError} (h : ix.cancelled = false)
      (hstep : ix.step feed now = ⟨.error e, later, final⟩) :
      StepsTo now ix feed ⟨.error e, later, final⟩
  | done {ix later : Indexer} {feed final : φ} (h : ix.cancelled = false)
      (hstep : ix.step feed now = ⟨.ok 0, later, final⟩) :
      StepsTo now ix feed ⟨.ok (), later, final⟩
  | more {ix later : Indexer} {feed final : φ} {n : Nat} {outcome : Outcome φ Unit}
      (h : ix.cancelled = false) (hstep : ix.step feed now = ⟨.ok (n + 1), later, final⟩)
      (hrest : StepsTo now later final outcome) : StepsTo now ix feed outcome

/-- How catching up ends: like the loop of steps, once a new indexer has been started. -/
inductive CatchesUp (now : Nat) : Indexer → φ → Outcome φ Unit → Prop where
  | notStarted {ix later : Indexer} {feed final : φ} {e : IndexerError} (h : ix.state = .idle)
      (hstart : ix.startUp feed now = ⟨.error e, later, final⟩) :
      CatchesUp now ix feed ⟨.error e, later, final⟩
  | starting {ix later : Indexer} {feed final : φ} {outcome : Outcome φ Unit} (h : ix.state = .idle)
      (hstart : ix.startUp feed now = ⟨.ok (), later, final⟩)
      (hsteps : StepsTo now later final outcome) : CatchesUp now ix feed outcome
  | started {ix : Indexer} {feed : φ} {outcome : Outcome φ Unit} (h : ix.state ≠ .idle)
      (hsteps : StepsTo now ix feed outcome) : CatchesUp now ix feed outcome

end

/-! ## What is left to read -/

variable {ix : Indexer} {store : MemoryStore} {now : Nat}

theorem lag_eq_sum (ix : Indexer) (store : MemoryStore) : ix.lag store
    = ((List.range store.partitions).map fun p => store.tail p - ix.position.seq p).sum := by
  rw [lag, SharedFeed.tailPosition_eq]
  exact Position.lag_upTo _ _ _

theorem lag_eq_zero_iff (hle : ∀ p, ix.position.seq p ≤ store.tail p) :
    ix.lag store = 0 ↔ ∀ p < store.partitions, ix.position.seq p = store.tail p := by
  rw [lag, SharedFeed.tailPosition_eq]
  constructor
  · intro h p hp
    exact Nat.le_antisymm (hle p) (Position.le_seq_of_lag_eq_zero h hp)
  · intro h
    exact Position.lag_eq_zero fun p hp => Nat.le_of_eq (h p hp).symm

/-- The events of a batch are what the lag behind it is lower. -/
theorem sum_lag_batch {position last : Position} {limit : Nat} {events : List ChangeEvent}
    (h : Batch position position last limit (List.range store.partitions) store store events) :
    ((List.range store.partitions).map fun p => store.tail p - last.seq p).sum + events.length
      = ((List.range store.partitions).map fun p => store.tail p - position.seq p).sum := by
  rw [h.events_eq, List.length_flatMap, ← List.sum_map_add]
  congr 1
  apply List.map_congr_left
  intro p hp
  have hfirst := h.le_last p hp
  have hlast := h.last_le p hp
  rw [MemoryStore.length_chunk]
  omega

/-- Batches that may have no events have none. -/
theorem readPartitions_zero (hstore : store.Numbered) (position : Position) {partitions : List Nat}
    (hlt : ∀ p ∈ partitions, p < store.partitions) (next : Position) :
    readPartitions position 0 partitions next store = (.ok ([], next), store) := by
  induction partitions generalizing next with
  | nil => rfl
  | cons p rest ih =>
      have hread : ChangeFeed.read store p (position.seq p) 0 = (.ok [], store) := by
        change (store.read p (position.seq p) 0, store) = _
        rw [MemoryStore.read_eq hstore (hlt p List.mem_cons_self)]
        simp [MemoryStore.chunk]
      have hnext : next.behind p [] = next := rfl
      rw [readPartitions_of_read hread, hnext, ih fun q hq => hlt q (List.mem_cons_of_mem p hq)]
      rfl

/-- A batch is empty if it may have no events, or if there are none. -/
theorem events_eq_nil_iff (hstore : store.WellFormed)
    (hle : ∀ p, ix.position.seq p ≤ store.tail p) {events : List ChangeEvent} {last : Position}
    (hread : ix.readBatch store = (.ok (events, last), store))
    (hbatch : Batch ix.position ix.position last ix.config.batchSize
      (List.range store.partitions) store store events) :
    events = [] ↔
      ix.config.batchSize = 0 ∨ ∀ p < store.partitions, ix.position.seq p = store.tail p := by
  constructor
  · intro hnil
    by_cases hzero : ix.config.batchSize = 0
    · exact .inl hzero
    · refine .inr fun p hp => ?_
      have hmem := List.mem_range.mpr hp
      have hstay := hbatch.events_eq_nil_iff.mp hnil p hmem
      have hprogress := hbatch.progress p hmem
      have hseq := hle p
      omega
  · rintro (hzero | htail)
    · have hlt : ∀ p ∈ List.range store.partitions, p < store.partitions := fun p hp =>
        List.mem_range.mp hp
      have hnone := readPartitions_zero hstore.toNumbered ix.position hlt ix.position
      rw [← hzero] at hnone
      have heq := hread.symm.trans hnone
      simp only [Prod.mk.injEq, Except.ok.injEq] at heq
      exact heq.1.1
    · rw [hbatch.events_eq_nil_iff]
      intro p hp
      rw [htail p (List.mem_range.mp hp)]
      exact hbatch.last_le p hp

/-! ## Steps -/

theorem bulkLoad_indexer (hstore : store.Numbered) (ix : Indexer) (now : Nat) :
    (ix.bulkLoad store now).indexer.position = .upTo store.partitions store.tail ∧
      (ix.bulkLoad store now).indexer.config = ix.config := by
  have hbulk := bulkLoad_eq ix store now
  obtain ⟨tally, checkpoint, since, hload⟩ := load_snd ix store.listAll.1 store.listAll.2 now
  have hindexer : (ix.bulkLoad store now).indexer
      = (ix.load store.listAll.1 store.listAll.2 now).2 := congrArg Outcome.indexer hbulk
  rw [hindexer, hload]
  exact ⟨listAll_snd hstore, rfl⟩

/-- What a step takes in: either the events of its batch alone, or then it has built the index
anew. -/
structure TakesIn (ix : Indexer) (store : MemoryStore) (n : Nat) (later : Indexer) : Prop where
  pos : 0 < n
  config_eq : later.config = ix.config
  seq_le : ∀ p, later.position.seq p ≤ store.tail p
  le_lag : n ≤ ix.lag store
  lag : later.rebuilds = ix.rebuilds ∧ later.lag store + n = ix.lag store ∨
    later.rebuilds = ix.rebuilds + 1 ∧ later.lag store = 0

theorem takesIn_of_position {later : Indexer} {last : Position} {events : List ChangeEvent}
    (hbatch : Batch ix.position ix.position last ix.config.batchSize
      (List.range store.partitions) store store events) (hne : events ≠ [])
    (hle : ∀ p, ix.position.seq p ≤ store.tail p) (hconfig : later.config = ix.config)
    (hrebuilds : later.rebuilds = ix.rebuilds) (hposition : later.position = last) :
    TakesIn ix store events.length later := by
  have hsum := sum_lag_batch hbatch
  rw [← hposition, ← lag_eq_sum, ← lag_eq_sum] at hsum
  exact {
    pos := List.length_pos_of_ne_nil hne
    config_eq := hconfig
    seq_le := by
      rw [hposition]
      exact hbatch.seq_le_tail hle
    le_lag := hsum ▸ Nat.le_add_left _ _
    lag := .inl ⟨hrebuilds, hsum⟩ }

theorem TakesIn.rebuild {n : Nat} {applied : Indexer} (h : TakesIn ix store n applied)
    (hsame : applied.rebuilds = ix.rebuilds) (hstore : store.Numbered) (now : Nat) :
    TakesIn ix store n (applied.rebuild store now).indexer := by
  obtain ⟨hposition, hconfig⟩ := bulkLoad_indexer hstore
    { applied with state := .rebuilding, rebuilds := applied.rebuilds + 1 } now
  have hposition : (applied.rebuild store now).indexer.position
      = .upTo store.partitions store.tail := hposition
  have hrebuilds : (applied.rebuild store now).indexer.rebuilds = applied.rebuilds + 1 :=
    rebuilds_bulkLoad { applied with state := .rebuilding, rebuilds := applied.rebuilds + 1 } store
      now
  have hle : ∀ p, (applied.rebuild store now).indexer.position.seq p ≤ store.tail p := by
    rw [hposition]
    exact Position.seq_upTo_le _ _
  refine ⟨h.pos, hconfig.trans h.config_eq, hle, h.le_lag, .inr ⟨hsame ▸ hrebuilds, ?_⟩⟩
  rw [lag_eq_zero_iff hle, hposition]
  intro p hp
  exact Position.seq_upTo _ hp

/-- A step finds nothing, fails, or takes something in. -/
theorem step_cases (hstore : store.WellFormed) (hle : ∀ p, ix.position.seq p ≤ store.tail p)
    (now : Nat) :
    ((ix.config.batchSize = 0 ∨ ∀ p < store.partitions, ix.position.seq p = store.tail p) ∧
      ix.step store now = ⟨.ok 0, ix, store⟩) ∨
    (¬(ix.config.batchSize = 0 ∨ ∀ p < store.partitions, ix.position.seq p = store.tail p) ∧
      ((∃ e later, ix.step store now = ⟨.error e, later, store⟩) ∨
        ∃ n later, ix.step store now = ⟨.ok n, later, store⟩ ∧ TakesIn ix store n later)) := by
  obtain ⟨events, last, final, hread, hbatch⟩ := @readBatch_spec MemoryStore _ ix store hle hstore
  have hquiet : (ix.readBatch store).2 = store := readPartitions_snd _ _ _ _
  obtain rfl : final = store := by rw [← hquiet, hread]
  have hnil := events_eq_nil_iff hstore hle hread hbatch
  unfold step
  rw [hread, ← hnil]
  dsimp only
  split
  next hempty => exact .inl ⟨List.isEmpty_iff.mp hempty, rfl⟩
  next hsome =>
    have hne : events ≠ [] := fun hempty => hsome (List.isEmpty_iff.mpr hempty)
    refine .inr ⟨hne, ?_⟩
    cases happly : ix.applyEvents events last now with
    | mk result applied =>
        cases result with
        | error e => exact .inl ⟨_, _, rfl⟩
        | ok done =>
            obtain ⟨tally, checkpoint, since, happlied⟩ := applyEvents_of_ok happly
            have htaken : TakesIn ix final events.length applied :=
              takesIn_of_position hbatch hne hle (by rw [happlied]) (by rw [happlied])
                (by rw [happlied]; rfl)
            have hsame : applied.rebuilds = ix.rebuilds := by rw [happlied]
            dsimp only
            split
            next =>
              unfold verifyAndRepair
              split
              next => exact .inr ⟨_, _, rfl, htaken⟩
              next damage _ =>
                have hrebuilt := htaken.rebuild hsame hstore.toNumbered now
                have hfeed : (applied.rebuild final now).feed = final := rfl
                generalize applied.rebuild final now = outcome at hrebuilt hfeed ⊢
                obtain ⟨result, rebuilt, feed⟩ := outcome
                obtain rfl : feed = final := hfeed
                cases result with
                | error e => exact .inl ⟨_, _, rfl⟩
                | ok done => exact .inr ⟨_, _, rfl, hrebuilt⟩
            next => exact .inr ⟨_, _, rfl, htaken⟩

theorem step_result_eq_zero_iff (hstore : store.WellFormed)
    (hle : ∀ p, ix.position.seq p ≤ store.tail p) (now : Nat) :
    (ix.step store now).result = .ok 0 ↔
      ix.config.batchSize = 0 ∨ ∀ p < store.partitions, ix.position.seq p = store.tail p := by
  rcases step_cases hstore hle now with ⟨hnone, hstep⟩ |
    ⟨hsome, ⟨e, later, hstep⟩ | ⟨n, later, hstep, htaken⟩⟩
  · simp [hstep, hnone]
  · simp [hstep, hsome]
  · simp [hstep, hsome, Nat.ne_of_gt htaken.pos]

/-- A step that takes nothing in changes nothing. -/
theorem step_eq_of_zero (hstore : store.WellFormed) (hle : ∀ p, ix.position.seq p ≤ store.tail p)
    (h : (ix.step store now).result = .ok 0) : ix.step store now = ⟨.ok 0, ix, store⟩ := by
  have hnone := (step_result_eq_zero_iff hstore hle now).mp h
  rcases step_cases hstore hle now with ⟨-, hstep⟩ | ⟨hsome, -⟩
  · exact hstep
  · exact absurd hnone hsome

theorem lag_step (hstore : store.WellFormed) (hle : ∀ p, ix.position.seq p ≤ store.tail p) {n : Nat}
    (h : (ix.step store now).result = .ok n) :
    (ix.step store now).feed = store ∧
    ((ix.step store now).indexer.rebuilds = ix.rebuilds →
      (ix.step store now).indexer.lag store + n = ix.lag store) ∧
    ((ix.step store now).indexer.rebuilds ≠ ix.rebuilds →
      (ix.step store now).indexer.lag store = 0) := by
  refine ⟨feed_step now, ?_⟩
  rcases step_cases hstore hle now with ⟨-, hstep⟩ |
    ⟨-, ⟨e, later, hstep⟩ | ⟨taken, later, hstep, htaken⟩⟩
  · rw [hstep] at h ⊢
    obtain rfl := Except.ok.inj h
    exact ⟨fun _ => rfl, fun hne => absurd rfl hne⟩
  · rw [hstep] at h
    cases h
  · rw [hstep] at h ⊢
    obtain rfl := Except.ok.inj h
    rcases htaken.lag with ⟨hsame, hlag⟩ | ⟨hrebuilt, hzero⟩
    · exact ⟨fun _ => hlag, fun hne => absurd hsame hne⟩
    · refine ⟨fun hsame => ?_, fun _ => hzero⟩
      exact absurd (hrebuilt.symm.trans hsame) (Nat.succ_ne_self _)

/-! ## Runs of steps -/

/-- With more fuel than the indexer lags, the bounded loop ends like the loop without a bound. -/
theorem stepsTo_stepAll (hstore : store.WellFormed) (now : Nat) {fuel : Nat}
    (hle : ∀ p, ix.position.seq p ≤ store.tail p) (hfuel : ix.lag store < fuel) :
    StepsTo now ix store (stepAll now fuel ix store) := by
  induction fuel generalizing ix with
  | zero => exact absurd hfuel (Nat.not_lt_zero _)
  | succ fuel ih =>
      rw [stepAll]
      cases hcancelled : ix.cancelled with
      | true => exact .cancelled hcancelled
      | false =>
          rw [if_neg Bool.false_ne_true]
          rcases step_cases hstore hle now with ⟨-, hstep⟩ |
            ⟨-, ⟨e, later, hstep⟩ | ⟨n, later, hstep, htaken⟩⟩
          · rw [hstep]
            exact .done hcancelled hstep
          · rw [hstep]
            exact .failed hcancelled hstep
          · obtain ⟨n, rfl⟩ := Nat.exists_eq_succ_of_ne_zero (Nat.ne_of_gt htaken.pos)
            rw [hstep]
            refine .more hcancelled hstep (ih htaken.seq_le ?_)
            -- Whether the index was built anew or not, the lag is lower.
            have hlag := htaken.lag
            have hpos := htaken.le_lag
            omega

/-- A loop that ends well has nothing left to read, unless it was cancelled. -/
theorem StepsTo.lag_eq_zero {outcome : Outcome MemoryStore Unit} (h : StepsTo now ix store outcome)
    (hstore : store.WellFormed) (hle : ∀ p, ix.position.seq p ≤ store.tail p)
    (hok : outcome.result = .ok ()) :
    outcome.feed = store ∧ (outcome.indexer.cancelled = true ∨ ix.config.batchSize = 0 ∨
      outcome.indexer.lag store = 0) := by
  induction h with
  | cancelled h => exact ⟨rfl, .inl h⟩
  | failed => cases hok
  | done _ hstep =>
      rcases step_cases hstore hle now with ⟨hnone, hidle⟩ |
        ⟨-, ⟨e, later, hfailed⟩ | ⟨n, later, htakes, htaken⟩⟩
      · obtain ⟨-, rfl, rfl⟩ := Outcome.mk.inj (hstep.symm.trans hidle)
        exact ⟨rfl, .inr (hnone.imp_right (lag_eq_zero_iff hle).mpr)⟩
      · cases (Outcome.mk.inj (hstep.symm.trans hfailed)).1
      · have hzero := Except.ok.inj (Outcome.mk.inj (hstep.symm.trans htakes)).1
        exact absurd hzero.symm (Nat.ne_of_gt htaken.pos)
  | more _ hstep _ ih =>
      rcases step_cases hstore hle now with ⟨-, hidle⟩ |
        ⟨-, ⟨e, later, hfailed⟩ | ⟨n, later, htakes, htaken⟩⟩
      · cases (Outcome.mk.inj (hstep.symm.trans hidle)).1
      · cases (Outcome.mk.inj (hstep.symm.trans hfailed)).1
      · obtain ⟨-, rfl, rfl⟩ := Outcome.mk.inj (hstep.symm.trans htakes)
        rw [← htaken.config_eq]
        exact ih hstore htaken.seq_le hok

/-! ## Catching up -/

theorem startUp_indexer (hstore : store.Numbered) (ix : Indexer) (now : Nat) :
    (∀ p, (ix.startUp store now).indexer.position.seq p ≤ store.tail p) ∧
      (ix.startUp store now).indexer.config = ix.config := by
  rcases startUp_cases ix store now with ⟨-, checkpoint, hstart⟩ |
    ⟨-, before, after, recovered, -, hrecover, hstart, -⟩
  · obtain ⟨hposition, hconfig⟩ :=
      bulkLoad_indexer hstore { ix with state := .catchingUp, checkpoint } now
    rw [hstart, hposition]
    exact ⟨Position.seq_upTo_le _ _, hconfig⟩
  · rw [hstart]
    refine ⟨fun p => ?_, rfl⟩
    have hle := Storage.Checkpoint.seq_le_of_recover hrecover p
    rw [SharedFeed.tailPosition_eq] at hle
    exact hle.trans (Position.seq_upTo_le _ _ p)

theorem catchesUp_catchUp (hstore : store.WellFormed)
    (hle : ∀ p, ix.position.seq p ≤ store.tail p) (now : Nat) :
    CatchesUp now ix store (ix.catchUp store now) := by
  have hfuel : ∀ later : Indexer, later.lag store < later.batchBound store := fun later =>
    Nat.lt_add_of_pos_right (by decide)
  unfold catchUp
  split
  next hidle =>
    have hstarted := (startUp_indexer hstore.toNumbered ix now).1
    have hfeed : (ix.startUp store now).feed = store := feed_startUp now
    cases hstart : ix.startUp store now with
    | mk result later final =>
        rw [hstart] at hstarted hfeed
        obtain rfl : final = store := hfeed
        cases result with
        | error e => exact .notStarted hidle hstart
        | ok done =>
            exact .starting hidle hstart (stepsTo_stepAll hstore now hstarted (hfuel later))
  next hstarted => exact .started hstarted (stepsTo_stepAll hstore now hle (hfuel ix))

theorem CatchesUp.lag_eq_zero {outcome : Outcome MemoryStore Unit}
    (h : CatchesUp now ix store outcome) (hstore : store.WellFormed)
    (hle : ∀ p, ix.position.seq p ≤ store.tail p) (hok : outcome.result = .ok ()) :
    outcome.feed = store ∧ (outcome.indexer.cancelled = true ∨ ix.config.batchSize = 0 ∨
      outcome.indexer.lag store = 0) := by
  cases h with
  | notStarted => cases hok
  | started _ hsteps => exact hsteps.lag_eq_zero hstore hle hok
  | starting _ hstart hsteps =>
      obtain ⟨hstarted, hconfig⟩ := startUp_indexer hstore.toNumbered ix now
      have hfeed : (ix.startUp store now).feed = store := feed_startUp now
      rw [hstart] at hstarted hconfig hfeed
      obtain rfl := hfeed
      rw [← hconfig]
      exact hsteps.lag_eq_zero hstore hstarted hok

/-- After any writes to an empty store, and while nobody writes: a step of an indexer that is not
ahead of the feed takes nothing in, and changes nothing, if and only if batches may have no events
or the indexer does not lag, which means that it is at the end of every partition. Otherwise it
fails, or the lag gets lower by as many events as it has taken in, or the index was built anew and
does not lag. So catching up always ends, however long the loop may take, and if it ends well, the
indexer has been cancelled, batches may have no events, or the indexer does not lag. -/
theorem progress_of_writes (partitions : Nat) (epoch : UInt64) (writes : List Mutation)
    (ix : Indexer) (now : Nat)
    (hle : ∀ p, ix.position.seq p
      ≤ ((MemoryStore.empty partitions epoch).mutateAll writes).tail p) :
    let store := (MemoryStore.empty partitions epoch).mutateAll writes
    let stepped := ix.step store now
    let caughtUp := ix.catchUp store now
    (stepped.result = .ok 0 ↔ ix.config.batchSize = 0 ∨ ix.lag store = 0) ∧
    (stepped.result = .ok 0 → stepped = ⟨.ok 0, ix, store⟩) ∧
    (ix.lag store = 0 ↔ ∀ p < store.partitions, ix.position.seq p = store.tail p) ∧
    (∀ n, stepped.result = .ok n → stepped.feed = store ∧
      (stepped.indexer.rebuilds = ix.rebuilds → stepped.indexer.lag store + n = ix.lag store) ∧
      (stepped.indexer.rebuilds ≠ ix.rebuilds → stepped.indexer.lag store = 0)) ∧
    CatchesUp now ix store caughtUp ∧
    (caughtUp.result = .ok () → caughtUp.feed = store ∧ (caughtUp.indexer.cancelled = true ∨
      ix.config.batchSize = 0 ∨ caughtUp.indexer.lag store = 0)) := by
  intro store stepped caughtUp
  have hstore : store.WellFormed :=
    (MemoryStore.mutateAll_spec (MemoryStore.wellFormed_empty partitions epoch) writes).1
  have hcaughtUp := catchesUp_catchUp hstore hle now
  have hlag := lag_eq_zero_iff hle
  refine ⟨?_, step_eq_of_zero hstore hle, hlag, fun n => lag_step hstore hle, hcaughtUp,
    hcaughtUp.lag_eq_zero hstore hle⟩
  rw [hlag]
  exact step_result_eq_zero_iff hstore hle now

/-! ## Some and no events at a time -/

namespace Stepping

/-- Lists the ids of documents. -/
def view : View := { name := "ids", map := fun doc => .emitted [⟨[.text doc.id], .null⟩] }

/-- An indexer that is started before anything is written. -/
def started (config : Config) : Indexer :=
  ((create view config none).startUp (MemoryStore.empty 2 7) 0).indexer

/-- Two documents in different partitions, with three events each. -/
def writes : List Mutation :=
  [.put "a" .null, .put "d" .null, .put "a" (.bool true), .put "d" (.bool true), .delete "a",
    .put "d" .null]

def written : MemoryStore := (MemoryStore.empty 2 7).mutateAll writes

theorem seq_le_started (config : Config) (p : Nat) :
    (started config).position.seq p ≤ written.tail p := by
  have hempty := MemoryStore.wellFormed_empty 2 7
  have hle := (startUp_indexer hempty.toNumbered (create view config none) 0).1 p
  exact hle.trans ((MemoryStore.mutateAll_spec hempty writes).2.tail_le p)

/-- The six events are taken in as batches of four and two. -/
theorem progress_of_six_events :
    let ix := started { batchSize := 2 }
    (ix.step written 1).result = .ok 4 ∧
      (ix.step written 1).indexer.lag written + 4 = ix.lag written ∧ ix.lag written = 6 ∧
      CatchesUp 1 ix written (ix.catchUp written 1) ∧
      (ix.catchUp written 1).indexer.lag written = 0 := by
  intro ix
  obtain ⟨-, -, -, hstep, hcatchesUp, hend⟩ :=
    progress_of_writes 2 7 writes ix 1 (seq_le_started { batchSize := 2 })
  have hresult : (ix.step written 1).result = .ok 4 := by decide +kernel
  have hlag := (hstep 4 hresult).2.1 (by decide +kernel)
  obtain ⟨-, hcancelled | hzero | hlast⟩ := hend (by decide +kernel)
  · exact absurd hcancelled (by decide +kernel)
  · exact absurd hzero (by decide)
  · exact ⟨hresult, hlag, by decide +kernel, hcatchesUp, hlast⟩

/-- Settings may ask for batches without events. Then a step takes nothing in, although the indexer
is behind in both partitions, and catching up ends there. -/
theorem not_caught_up_batchless : ∃ config, Config.ofText? "batch_size = 0" = some config ∧
    (∀ p, (started config).position.seq p ≤ written.tail p) ∧
    ((started config).step written 1).result = .ok 0 ∧
    ((started config).step written 1).indexer.lag written = 6 ∧
    ((started config).catchUp written 1).result = .ok () ∧
    ((started config).catchUp written 1).indexer.lag written = 6 :=
  ⟨{ batchSize := 0 }, by decide +kernel, seq_le_started _, by decide +kernel, by decide +kernel,
    by decide +kernel, by decide +kernel⟩

end Stepping

end ViewIndex.Indexer
