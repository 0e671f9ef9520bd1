import ViewIndex.Proofs.Indexer.Currency

/-!
# Following a feed

A step takes the next batch in, or finds that the feed had nothing behind the position. So stepping
goes on until the index is at the end of the feed, and it gets there because every batch lowers the
lag. Whatever an indexer has been through, it is current.
-/

namespace ViewIndex.Indexer

open MemoryStore (Extends)
open SharedFeed (backing)

variable {φ : Type} [SharedFeed φ] {ix : Indexer} {feed : φ}

/-- What a step does besides: it never goes back, it stays only if there was nothing to read, and
otherwise it gets ahead in some partition. -/
structure Stepped (ix : Indexer) (feed : φ) (outcome : Outcome φ Nat) : Prop
    extends Kept ix feed outcome where
  precedes : ix.position.Precedes outcome.indexer.position
  done : outcome.result = .ok 0 → 0 < ix.config.batchSize →
    ∀ p < (backing feed).partitions, (backing feed).tail p ≤ outcome.indexer.position.seq p
  ahead : outcome.result ≠ .ok 0 → ∃ p < (backing feed).partitions,
    ix.position.seq p < outcome.indexer.position.seq p

theorem readBatch_spec (hle : ∀ p, ix.position.seq p ≤ (backing feed).tail p)
    (hfeed : (backing feed).WellFormed) :
    ∃ events last final, ix.readBatch feed = (.ok (events, last), final) ∧
      Batch ix.position ix.position last ix.config.batchSize
        (List.range (backing feed).partitions) (backing feed) (backing final) events := by
  unfold readBatch
  rw [SharedFeed.partitions_eq]
  apply readPartitions_spec _ List.nodup_range _ hfeed
  intro p hp
  exact ⟨List.mem_range.mp hp, hle p, rfl⟩

theorem applyEvents_eq (h : ix.checkpoint = none) (events : List ChangeEvent)
    (position : Position) (now : Nat) :
    ix.applyEvents events position now = (.ok (), { ix with
      tally := (View.collectUpdates ix.view.evaluateEvent ix.tally events).1
      store := (ix.store.applyBatch
        (View.collectUpdates ix.view.evaluateEvent ix.tally events).2 (some position)).1
      eventsApplied := ix.eventsApplied + events.length
      batches := ix.batches + 1
      lastBatchSize := events.length }) := by
  simp [applyEvents, commit, checkBatch, h]

theorem current_applyEvents (hcurrent : Current ix.view ix.config ix (backing feed))
    (htotal : ix.view.IsTotal) (hfeed : (backing feed).WellFormed) {events : List ChangeEvent}
    {last : Position} {final : φ}
    (h : Batch ix.position ix.position last ix.config.batchSize
      (List.range (backing feed).partitions) (backing feed) (backing final) events) (now : Nat) :
    Current ix.view ix.config (ix.applyEvents events last now).2 (backing final) := by
  have hholds := hcurrent.holds.applyBatch
    (events.map fun event => ⟨event.docId, ix.view.entriesAfter (some event)⟩) (some last)
  rw [View.setAll_batch hfeed.toNumbered hcurrent.seq_le h] at hholds
  have hpartitions := h.extends_before.partitions_eq
  rw [applyEvents_eq hcurrent.checkpoint,
    View.collectUpdates_snd (View.evaluateEvent_snd htotal)]
  exact {
    view_eq := rfl
    config_eq := rfl
    checkpoint := hcurrent.checkpoint
    holds := hholds
    seq_le := h.seq_le_tail hcurrent.seq_le
    lt_of_mem := h.lt_of_mem hcurrent.lt_of_mem
    started := by
      intro hstate p hp
      rw [hpartitions] at hp
      exact h.mem_of_mem p (hcurrent.started hstate p hp) }

theorem Current.precedes_upTo {view : View} {config : Config} {store later : MemoryStore}
    (h : Current view config ix store) (hextends : Extends store later) :
    ix.position.Precedes (.upTo later.partitions later.tail) := by
  have hmem : ∀ p ∈ ix.position, p < later.partitions := by
    rw [hextends.partitions_eq]
    exact h.lt_of_mem
  refine ⟨fun p hp => (Position.mem_upTo _ _ p).mpr (hmem p hp), fun p => ?_⟩
  by_cases hp : p ∈ ix.position
  · rw [Position.seq_upTo _ (hmem p hp)]
    exact (h.seq_le p).trans (hextends.tail_le p)
  · rw [Position.seq_of_not_mem hp]
    exact Nat.zero_le _

theorem kept_verifyAndRepair (hcurrent : Current ix.view ix.config ix (backing feed))
    (htotal : ix.view.IsTotal) (hfeed : (backing feed).WellFormed) (now : Nat) :
    Kept ix feed (ix.verifyAndRepair feed now) ∧
      ix.position.Precedes (ix.verifyAndRepair feed now).indexer.position := by
  unfold verifyAndRepair
  split
  next => exact ⟨⟨⟨_, rfl⟩, hfeed, .refl _, hcurrent, rfl⟩, .refl _⟩
  next damage _ =>
    have hbuilt := rebuilt_rebuild ix hcurrent.checkpoint htotal hfeed now
    obtain ⟨a, hok⟩ := hbuilt.ok
    refine ⟨⟨⟨_, congrArg (Except.map fun _ => VerifyOutcome.rebuilt damage) hok⟩,
      hbuilt.wellFormed, hbuilt.extends_feed, hbuilt.current, hbuilt.cancelled_eq⟩, ?_⟩
    change ix.position.Precedes (ix.rebuild feed now).indexer.position
    rw [hbuilt.atTail.position_eq]
    exact hcurrent.precedes_upTo hbuilt.extends_feed

/-- Checking, and rebuilding if need be, after a batch was applied. -/
theorem stepped_repair {applied : Indexer} {final : φ} {n : Nat} (hn : n ≠ 0)
    (hextends : Extends (backing feed) (backing final)) (hfinal : (backing final).WellFormed)
    (hcurrent : Current ix.view ix.config applied (backing final)) (htotal : ix.view.IsTotal)
    (hcancelled : applied.cancelled = ix.cancelled)
    (hprecedes : ix.position.Precedes applied.position)
    (hahead : ∃ p < (backing feed).partitions, ix.position.seq p < applied.position.seq p)
    (now : Nat) :
    Stepped ix feed { applied.verifyAndRepair final now with
      result := (applied.verifyAndRepair final now).result.map fun _ => n } := by
  have hview := hcurrent.view_eq
  have hconfig := hcurrent.config_eq
  obtain ⟨hkept, hlater⟩ := kept_verifyAndRepair (by rw [hview, hconfig]; exact hcurrent)
    (by rw [hview]; exact htotal) hfinal now
  obtain ⟨a, hok⟩ := hkept.ok
  have hresult : (applied.verifyAndRepair final now).result.map (fun _ => n) = .ok n :=
    congrArg (Except.map fun _ => n) hok
  have hcurrent' := hkept.current
  rw [hview, hconfig] at hcurrent'
  exact {
    ok := ⟨n, hresult⟩
    wellFormed := hkept.wellFormed
    extends_feed := hextends.trans hkept.extends_feed
    current := hcurrent'
    cancelled_eq := hkept.cancelled_eq.trans hcancelled
    precedes := hprecedes.trans hlater
    done := fun hzero => absurd (Except.ok.inj (hresult.symm.trans hzero)) hn
    ahead := by
      intro _
      obtain ⟨p, hp, hlt⟩ := hahead
      exact ⟨p, hp, hlt.trans_le (hlater.seq_le p)⟩ }

/-- A step that finds nothing has nothing left to do. -/
theorem stepped_of_no_events {last : Position} {final : φ}
    (hcurrent : Current ix.view ix.config ix (backing feed)) (hfeed : (backing feed).WellFormed)
    (hbatch : Batch ix.position ix.position last ix.config.batchSize
      (List.range (backing feed).partitions) (backing feed) (backing final) []) :
    Stepped ix feed ⟨.ok 0, ix, final⟩ where
  ok := ⟨0, rfl⟩
  wellFormed := hbatch.wellFormed
  extends_feed := hbatch.extends_before
  current := hcurrent.extends hfeed.toNumbered hbatch.wellFormed.toNumbered hbatch.extends_before
  cancelled_eq := rfl
  precedes := .refl _
  done := by
    intro _ hpos p hp
    have hprogress := hbatch.progress p (List.mem_range.mpr hp)
    have hstay := hbatch.events_eq_nil_iff.mp rfl p (List.mem_range.mpr hp)
    change _ ≤ ix.position.seq p
    omega
  ahead := fun hne => absurd rfl hne

theorem stepped_step (feed : φ) (hcurrent : Current ix.view ix.config ix (backing feed))
    (htotal : ix.view.IsTotal) (hfeed : (backing feed).WellFormed) (now : Nat) :
    Stepped ix feed (ix.step feed now) := by
  obtain ⟨events, last, final, hread, hbatch⟩ := readBatch_spec hcurrent.seq_le hfeed
  have hextends := hbatch.extends_before
  unfold step
  rw [hread]
  dsimp only
  split
  next hempty =>
    obtain rfl := List.isEmpty_iff.mp hempty
    exact stepped_of_no_events hcurrent hfeed hbatch
  next hsome =>
    have hne : events ≠ [] := fun hnil => hsome (List.isEmpty_iff.mpr hnil)
    have hlength : events.length ≠ 0 := fun hzero => hne (List.length_eq_zero_iff.mp hzero)
    have hahead : ∃ p < (backing feed).partitions, ix.position.seq p < last.seq p := by
      have hstay := hbatch.events_eq_nil_iff.not.mp hne
      push Not at hstay
      obtain ⟨p, hp, hlt⟩ := hstay
      exact ⟨p, List.mem_range.mp hp, hlt⟩
    have happlied := current_applyEvents hcurrent htotal hfeed hbatch now
    rw [applyEvents_eq hcurrent.checkpoint] at happlied ⊢
    dsimp only at happlied ⊢
    split
    next =>
      exact stepped_repair hlength hextends hbatch.wellFormed happlied htotal rfl hbatch.precedes
        hahead now
    next =>
      exact {
        ok := ⟨_, rfl⟩
        wellFormed := hbatch.wellFormed
        extends_feed := hextends
        current := happlied
        cancelled_eq := rfl
        precedes := hbatch.precedes
        done := fun hzero => absurd (Except.ok.inj hzero) hlength
        ahead := fun _ => hahead }

theorem Kept.trans {α β : Type} {outcome : Outcome φ α} {later : Outcome φ β}
    (h : Kept ix feed outcome) (hlater : Kept outcome.indexer outcome.feed later) :
    Kept ix feed later where
  ok := hlater.ok
  wellFormed := hlater.wellFormed
  extends_feed := h.extends_feed.trans hlater.extends_feed
  current := by
    rw [← h.current.view_eq, ← h.current.config_eq]
    exact hlater.current
  cancelled_eq := hlater.cancelled_eq.trans h.cancelled_eq

theorem startUp_eq (h : ix.checkpoint = none) (feed : φ) (now : Nat) :
    ix.startUp feed now = { ix with state := .catchingUp }.bulkLoad feed now := by
  simp [startUp, recover, h]

theorem rebuilt_startUp (ix : Indexer) (h : ix.checkpoint = none) (htotal : ix.view.IsTotal)
    (feed : φ) (hfeed : (backing feed).WellFormed) (now : Nat) :
    Rebuilt ix feed (ix.startUp feed now) := by
  rw [startUp_eq h]
  have hbuilt := rebuilt_bulkLoad { ix with state := .catchingUp } h htotal hfeed now
  exact {
    ok := hbuilt.ok
    wellFormed := hbuilt.wellFormed
    extends_feed := hbuilt.extends_feed
    current := hbuilt.current
    cancelled_eq := hbuilt.cancelled_eq
    atTail := hbuilt.atTail }

theorem stepAll_of_zero {now fuel : Nat} (hcancelled : ix.cancelled = false)
    (h : (ix.step feed now).result = .ok 0) :
    stepAll now (fuel + 1) ix feed
      = ⟨.ok (), (ix.step feed now).indexer, (ix.step feed now).feed⟩ := by
  rw [stepAll, if_neg (by simp [hcancelled])]
  generalize ix.step feed now = outcome at h ⊢
  obtain ⟨result, later, final⟩ := outcome
  cases h
  rfl

theorem stepAll_of_succ {now fuel n : Nat} (hcancelled : ix.cancelled = false)
    (h : (ix.step feed now).result = .ok (n + 1)) :
    stepAll now (fuel + 1) ix feed
      = stepAll now fuel (ix.step feed now).indexer (ix.step feed now).feed := by
  rw [stepAll, if_neg (by simp [hcancelled])]
  generalize ix.step feed now = outcome at h ⊢
  obtain ⟨result, later, final⟩ := outcome
  cases h
  rfl

theorem kept_stepAll (feed : φ) (now fuel : Nat)
    (hcurrent : Current ix.view ix.config ix (backing feed)) (htotal : ix.view.IsTotal)
    (hfeed : (backing feed).WellFormed) :
    Kept ix feed (stepAll now fuel ix feed) := by
  induction fuel generalizing ix feed with
  | zero => exact ⟨⟨(), rfl⟩, hfeed, .refl _, hcurrent, rfl⟩
  | succ fuel ih =>
      cases hcancelled : ix.cancelled with
      | true =>
          rw [stepAll, if_pos hcancelled]
          exact ⟨⟨(), rfl⟩, hfeed, .refl _, hcurrent, rfl⟩
      | false =>
          have hstep := stepped_step _ hcurrent htotal hfeed now
          obtain ⟨n, hok⟩ := hstep.ok
          cases n with
          | zero =>
              rw [stepAll_of_zero hcancelled hok]
              exact { hstep.toKept with ok := ⟨(), rfl⟩ }
          | succ n =>
              have hlater := hstep.current
              rw [← hlater.view_eq, ← hlater.config_eq] at hlater
              rw [stepAll_of_succ hcancelled hok]
              exact hstep.toKept.trans
                (ih _ hlater (hstep.current.view_eq ▸ htotal) hstep.wellFormed)

theorem catchUp_of_idle {now : Nat} (hidle : ix.state = .idle)
    (hok : (ix.startUp feed now).result = .ok ()) :
    ix.catchUp feed now
      = stepAll now ((ix.startUp feed now).indexer.batchBound (ix.startUp feed now).feed)
          (ix.startUp feed now).indexer (ix.startUp feed now).feed := by
  unfold catchUp
  rw [if_pos hidle]
  generalize ix.startUp feed now = outcome at hok ⊢
  obtain ⟨result, later, final⟩ := outcome
  cases hok
  rfl

theorem catchUp_of_started {now : Nat} (hstate : ix.state ≠ .idle) :
    ix.catchUp feed now = stepAll now (ix.batchBound feed) ix feed := by
  unfold catchUp
  rw [if_neg hstate]

theorem kept_catchUp (feed : φ) (hcurrent : Current ix.view ix.config ix (backing feed))
    (htotal : ix.view.IsTotal) (hfeed : (backing feed).WellFormed) (now : Nat) :
    Kept ix feed (ix.catchUp feed now) := by
  by_cases hidle : ix.state = .idle
  · have hstart := rebuilt_startUp ix hcurrent.checkpoint htotal feed hfeed now
    obtain ⟨⟨⟩, hok⟩ := hstart.ok
    have hlater := hstart.current
    rw [← hlater.view_eq, ← hlater.config_eq] at hlater
    rw [catchUp_of_idle hidle hok]
    exact hstart.toKept.trans
      (kept_stepAll _ now _ hlater (hstart.current.view_eq ▸ htotal) hstart.wellFormed)
  · rw [catchUp_of_started hidle]
    exact kept_stepAll feed now _ hcurrent htotal hfeed

/-! ## Reaching the end -/

/-- An indexer that has taken in every partition and is not behind in any is at the end. -/
theorem Current.position_eq_upTo {view : View} {config : Config} {store : MemoryStore}
    (h : Current view config ix store) (hmem : ∀ p < store.partitions, p ∈ ix.position)
    (htail : ∀ p < store.partitions, store.tail p ≤ ix.position.seq p) :
    ix.position = .upTo store.partitions store.tail := by
  apply Position.ext_seq
  · intro p
    rw [Position.mem_upTo]
    exact ⟨h.lt_of_mem p, hmem p⟩
  · intro p
    by_cases hp : p < store.partitions
    · rw [Position.seq_upTo _ hp]
      exact Nat.le_antisymm (h.seq_le p) (htail p hp)
    · rw [Position.seq_of_not_mem fun hmem => hp (h.lt_of_mem p hmem),
        Position.seq_of_not_mem fun hmem => hp ((Position.mem_upTo _ _ p).mp hmem)]

section Quiet

variable {store : MemoryStore}

theorem readPartitions_snd (position : Position) (limit : Nat) (partitions : List Nat)
    (next : Position) : (readPartitions position limit partitions next store).2 = store := by
  induction partitions generalizing next with
  | nil => rfl
  | cons p rest ih =>
      have hread : ChangeFeed.read store p (position.seq p) limit
          = (store.read p (position.seq p) limit, store) := rfl
      cases hevents : store.read p (position.seq p) limit with
      | error e =>
          rw [readPartitions, hread, hevents]
      | ok events =>
          rw [hevents] at hread
          rw [readPartitions_of_read hread]
          have hrest := ih (next.behind p events)
          generalize readPartitions position limit rest (next.behind p events) store = answer
            at hrest ⊢
          obtain ⟨result, final⟩ := answer
          cases result <;> exact hrest

theorem feed_verifyAndRepair (now : Nat) : (ix.verifyAndRepair store now).feed = store := by
  unfold verifyAndRepair
  split <;> rfl

theorem feed_step (now : Nat) : (ix.step store now).feed = store := by
  have hread : (ix.readBatch store).2 = store := readPartitions_snd _ _ _ _
  unfold step
  generalize ix.readBatch store = answer at hread ⊢
  obtain ⟨result, final⟩ := answer
  obtain rfl : final = store := hread
  cases result with
  | error e => rfl
  | ok batch =>
      dsimp only
      split
      next => rfl
      next =>
        split
        next => rfl
        next =>
          split
          next => exact feed_verifyAndRepair now
          next => rfl

theorem feed_startUp (now : Nat) : (ix.startUp store now).feed = store := by
  unfold startUp
  dsimp only
  split <;> rfl

/-- A step that takes something in lowers the lag. -/
theorem lag_step_lt (hcurrent : Current ix.view ix.config ix store) (htotal : ix.view.IsTotal)
    (hstore : store.WellFormed) (now : Nat) (h : (ix.step store now).result ≠ .ok 0) :
    (ix.step store now).indexer.lag store < ix.lag store := by
  have hstep := stepped_step store hcurrent htotal hstore now
  have hlater := hstep.current
  rw [feed_step] at hlater
  obtain ⟨p, hp, hlt⟩ := hstep.ahead h
  exact Position.lag_lt hstep.precedes ⟨p, hp, hlt, hlater.seq_le p⟩

/-- With more fuel than it lags, an indexer steps to the end of the feed. -/
theorem stepAll_atEnd (now : Nat) {fuel : Nat} (hcurrent : Current ix.view ix.config ix store)
    (htotal : ix.view.IsTotal) (hstore : store.WellFormed) (hbatch : 0 < ix.config.batchSize)
    (hcancelled : ix.cancelled = false) (hfuel : ix.lag store < fuel) :
    (stepAll now fuel ix store).feed = store ∧
      ix.position.Precedes (stepAll now fuel ix store).indexer.position ∧
      ∀ p < store.partitions,
        store.tail p ≤ (stepAll now fuel ix store).indexer.position.seq p := by
  induction fuel generalizing ix with
  | zero => exact absurd hfuel (Nat.not_lt_zero _)
  | succ fuel ih =>
      have hstep := stepped_step store hcurrent htotal hstore now
      have hlater := hstep.current
      rw [feed_step, ← hlater.view_eq, ← hlater.config_eq] at hlater
      obtain ⟨n, hok⟩ := hstep.ok
      -- A step that takes nothing in ends the loop; any other lowers the lag, which fuel exceeds.
      cases n with
      | zero =>
          rw [stepAll_of_zero hcancelled hok]
          exact ⟨feed_step now, hstep.precedes, hstep.done hok hbatch⟩
      | succ n =>
          have hlag := lag_step_lt hcurrent htotal hstore now
            (by rw [hok]; exact fun hzero => Nat.succ_ne_zero n (Except.ok.inj hzero))
          rw [stepAll_of_succ hcancelled hok, feed_step]
          obtain ⟨hfeed, hprecedes, htail⟩ := ih hlater (hstep.current.view_eq ▸ htotal)
            (hstep.current.config_eq ▸ hbatch) (hstep.cancelled_eq.trans hcancelled) (by omega)
          exact ⟨hfeed, hstep.precedes.trans hprecedes, htail⟩

/-- Once every partition is taken in, stepping goes to the end of the feed. -/
theorem stepAll_position_eq {now : Nat} (hcurrent : Current ix.view ix.config ix store)
    (htotal : ix.view.IsTotal) (hstore : store.WellFormed) (hbatch : 0 < ix.config.batchSize)
    (hcancelled : ix.cancelled = false) (hmem : ∀ p < store.partitions, p ∈ ix.position) :
    (stepAll now (ix.batchBound store) ix store).feed = store ∧
      (stepAll now (ix.batchBound store) ix store).indexer.position
        = .upTo store.partitions store.tail := by
  have hfuel : ix.lag store < ix.batchBound store := Nat.lt_add_of_pos_right (by decide)
  obtain ⟨hfeed, hprecedes, htail⟩ :=
    stepAll_atEnd now hcurrent htotal hstore hbatch hcancelled hfuel
  have hlater := (kept_stepAll store now (ix.batchBound store) hcurrent htotal
    hstore).current
  rw [hfeed] at hlater
  exact ⟨hfeed, hlater.position_eq_upTo (fun p hp => hprecedes.mem p (hmem p hp)) htail⟩

/-- Catching up while nobody writes ends at the end of the feed. -/
theorem catchUp_position_eq (hcurrent : Current ix.view ix.config ix store)
    (htotal : ix.view.IsTotal) (hstore : store.WellFormed) (hbatch : 0 < ix.config.batchSize)
    (hcancelled : ix.cancelled = false) (now : Nat) :
    (ix.catchUp store now).feed = store ∧
      (ix.catchUp store now).indexer.position = .upTo store.partitions store.tail := by
  by_cases hidle : ix.state = .idle
  · have hstart := rebuilt_startUp ix hcurrent.checkpoint htotal store hstore now
    obtain ⟨⟨⟩, hok⟩ := hstart.ok
    have hfeed : (ix.startUp store now).feed = store := by
      rw [startUp_eq hcurrent.checkpoint]
      rfl
    have hlater := hstart.atTail
    rw [hfeed, ← hlater.view_eq, ← hlater.config_eq] at hlater
    rw [catchUp_of_idle hidle hok, hfeed]
    apply stepAll_position_eq hlater.toCurrent (hstart.current.view_eq ▸ htotal) hstore
      (hstart.current.config_eq ▸ hbatch) (hstart.cancelled_eq.trans hcancelled)
    intro p hp
    rw [hlater.position_eq]
    exact (Position.mem_upTo _ _ p).mpr hp
  · rw [catchUp_of_started hidle]
    exact stepAll_position_eq hcurrent htotal hstore hbatch hcancelled (hcurrent.started hidle)

end Quiet

/-! ## Runs -/

/-- The indexers and stores that an indexer without stored state and the writers of its store can
get to. An operation works on a feed of the store, to which others may write meanwhile. -/
inductive Reaches (view : View) (config : Config) : Indexer → MemoryStore → Prop where
  | start (partitions : Nat) (epoch : UInt64) :
      Reaches view config (create view config none) (.empty partitions epoch)
  | write {ix : Indexer} {store : MemoryStore} (h : Reaches view config ix store)
      (mutation : Mutation) : Reaches view config ix (store.mutate mutation)
  | stop {ix : Indexer} {store : MemoryStore} (h : Reaches view config ix store) :
      Reaches view config ix.stop store
  | bulkLoad {φ : Type} [SharedFeed φ] {ix : Indexer} {feed : φ}
      (h : Reaches view config ix (backing feed)) (now : Nat) :
      Reaches view config (ix.bulkLoad feed now).indexer (backing (ix.bulkLoad feed now).feed)
  | startUp {φ : Type} [SharedFeed φ] {ix : Indexer} {feed : φ}
      (h : Reaches view config ix (backing feed)) (now : Nat) :
      Reaches view config (ix.startUp feed now).indexer (backing (ix.startUp feed now).feed)
  | rebuild {φ : Type} [SharedFeed φ] {ix : Indexer} {feed : φ}
      (h : Reaches view config ix (backing feed)) (now : Nat) :
      Reaches view config (ix.rebuild feed now).indexer (backing (ix.rebuild feed now).feed)
  | step {φ : Type} [SharedFeed φ] {ix : Indexer} {feed : φ}
      (h : Reaches view config ix (backing feed)) (now : Nat) :
      Reaches view config (ix.step feed now).indexer (backing (ix.step feed now).feed)
  | catchUp {φ : Type} [SharedFeed φ] {ix : Indexer} {feed : φ}
      (h : Reaches view config ix (backing feed)) (now : Nat) :
      Reaches view config (ix.catchUp feed now).indexer (backing (ix.catchUp feed now).feed)

/-- What an operation keeps goes for the view and the settings that the indexer was made with. -/
theorem Current.of_kept {φ α : Type} [SharedFeed φ] {view : View} {config : Config} {feed : φ}
    {outcome : Outcome φ α} (h : Current view config ix (backing feed)) (htotal : view.IsTotal)
    (hkept : Current ix.view ix.config ix (backing feed) → ix.view.IsTotal →
      Kept ix feed outcome) :
    (backing outcome.feed).WellFormed ∧
      Current view config outcome.indexer (backing outcome.feed) := by
  obtain rfl := h.view_eq
  obtain rfl := h.config_eq
  have hkept := hkept h htotal
  exact ⟨hkept.wellFormed, hkept.current⟩

/-- By induction on the run; others may have written before an operation and meanwhile. -/
theorem Reaches.current {view : View} {config : Config} {store : MemoryStore}
    (h : Reaches view config ix store) (htotal : view.IsTotal) :
    store.WellFormed ∧ Current view config ix store := by
  induction h with
  | start partitions epoch =>
      have hempty := MemoryStore.wellFormed_empty partitions epoch
      exact ⟨hempty, current_create view config hempty.toNumbered⟩
  | write _ mutation ih =>
      obtain ⟨hstore, hcurrent⟩ := ih
      have hlater := hstore.mutate mutation
      exact ⟨hlater, hcurrent.extends hstore.toNumbered hlater.toNumbered
        (MemoryStore.extends_mutate hstore mutation)⟩
  | stop _ ih =>
      obtain ⟨hstore, hcurrent⟩ := ih
      exact ⟨hstore, { hcurrent with }⟩
  | bulkLoad _ now ih =>
      apply ih.2.of_kept htotal
      intro hcurrent htotal
      exact (rebuilt_bulkLoad _ hcurrent.checkpoint htotal ih.1 now).toKept
  | startUp _ now ih =>
      apply ih.2.of_kept htotal
      intro hcurrent htotal
      exact (rebuilt_startUp _ hcurrent.checkpoint htotal _ ih.1 now).toKept
  | rebuild _ now ih =>
      apply ih.2.of_kept htotal
      intro hcurrent htotal
      exact (rebuilt_rebuild _ hcurrent.checkpoint htotal ih.1 now).toKept
  | step _ now ih =>
      apply ih.2.of_kept htotal
      intro hcurrent htotal
      exact (stepped_step _ hcurrent htotal ih.1 now).toKept
  | catchUp _ now ih =>
      apply ih.2.of_kept htotal
      intro hcurrent htotal
      exact kept_catchUp _ hcurrent htotal ih.1 now

/-- Wherever an indexer without stored state gets to, its published index has exactly the entries
that each document has by its last event up to the published position. It has none of a document
without such an event, of a deleted one, or of one that has another type than the view. Catching up
while nobody writes succeeds and ends at the end of the feed, unless batches are empty or the
indexer was cancelled. -/
theorem current_of_reaches {view : View} {config : Config} {store : MemoryStore}
    (htotal : view.IsTotal) (h : Reaches view config ix store) :
    (∀ e, e ∈ ix.store.current.entries ↔ ∃ docId i key value,
      (view.entriesAfter (store.lastEvent? docId
        (ix.store.current.position.seq (store.partitionOf docId))))[i]? = some (key, value) ∧
      e = ⟨⟨key, docId, i⟩, value⟩) ∧
    (∀ docId, (∀ event doc, store.lastEvent? docId
        (ix.store.current.position.seq (store.partitionOf docId)) = some event →
        event.document? = some doc →
        ∃ docType, view.docType = some docType ∧ doc.docType? ≠ some docType) →
      ∀ e ∈ ix.store.current.entries, e.id.docId ≠ docId) ∧
    (0 < config.batchSize → ix.cancelled = false → ∀ now,
      (ix.catchUp store now).result = .ok () ∧ (ix.catchUp store now).feed = store ∧
      (ix.catchUp store now).indexer.position = ChangeFeed.tailPosition store ∧
      (ix.catchUp store now).indexer.lag store = 0) := by
  obtain ⟨hstore, hcurrent⟩ := h.current htotal
  obtain rfl := hcurrent.view_eq
  obtain rfl := hcurrent.config_eq
  refine ⟨fun e => ?_, fun docId hnone e he hdoc => ?_, fun hbatch hcancelled now => ?_⟩
  · rw [hcurrent.holds.mem_entries]
    constructor
    · intro hhas
      exact ⟨e.id.docId, e.id.ordinal, e.id.key, e.value, hhas, rfl⟩
    · rintro ⟨docId, i, key, value, hget, rfl⟩
      exact hget
  · have hhas := (hcurrent.holds.mem_entries e).mp he
    have hnil : ix.view.contentsAt store ix.position docId = [] := by
      rw [View.contentsAt, View.entriesAfter]
      cases hlast : store.lastEvent? docId (ix.position.seq (store.partitionOf docId)) with
      | none => rfl
      | some event =>
          rw [Option.bind_some]
          cases hevent : event.document? with
          | none => rfl
          | some doc =>
              have hother := View.appliesTo_eq_false_iff.mpr (hnone event doc hlast hevent)
              exact View.entriesOf_of_not_applies hother
    rw [Contents.Has, hdoc, hnil] at hhas
    cases hhas
  · obtain ⟨hfeed, hposition⟩ :=
      catchUp_position_eq hcurrent htotal hstore hbatch hcancelled now
    obtain ⟨⟨⟩, hok⟩ := (kept_catchUp store hcurrent htotal hstore now).ok
    refine ⟨hok, hfeed, hposition, ?_⟩
    change Position.lag (.upTo store.partitions store.tail) _ = 0
    rw [hposition]
    exact Position.lag_eq_zero fun p hp => Nat.le_of_eq (Position.seq_upTo _ hp).symm

/-- A document that is written twice while the index is built, one event to a batch. -/
theorem lag_after_catchUp :
    let view : View := { name := "ids", map := fun doc => .emitted [⟨[.text doc.id], .null⟩] }
    let config : Config := { batchSize := 1 }
    let busy : BusyStore := ⟨.empty 2 0, [[.put "a" .null, .put "a" (.bool true)]]⟩
    let built := (create view config none).bulkLoad busy 0
    (built.indexer.catchUp (built.feed.store.mutate (.delete "a")) 0).indexer.lag
      (built.feed.store.mutate (.delete "a")) = 0 := by
  intro view config busy built
  have hstart : Reaches view config (create view config none) (backing busy) := .start 2 0
  have hreaches := (hstart.bulkLoad 0).write (.delete "a")
  exact ((current_of_reaches (fun doc _ => ⟨_, rfl⟩) hreaches).2.2 (by decide) rfl 0).2.2.2

end ViewIndex.Indexer
