import ViewIndex.Proofs.Storage.Sessions

/-!
# Crashes

What a crash leaves behind tells the history of the session, whichever effects have taken place.
Recovery gives it back if the texts of all values can be read, and it gives it back unchanged
exactly if, besides, every value in the view is read as what it was.
-/

namespace ViewIndex.Storage.Session

open Directory (after)

variable {signature feedEpoch : UInt64} {s : Session} {directory : Directory}
  {history : Option History}

theorem Kept.exists_of_sealing (h : Kept signature feedEpoch s) {now : Nat} (hseal : s.CanSeal now)
    {effects : List FileEffect}
    (heffects : effects <+: Log.sealEffects s.directory (s.nextSeal now)) :
    ∃ layout, Laid (s.directory.run effects).2 layout ∧
      Tells signature feedEpoch layout s.history := by
  obtain ⟨image, segments, batches, hopen, htells⟩ := h.stored
  obtain ⟨later, hlater, himage, hpending⟩ := hopen.sealing hseal.clock hseal.lt heffects
  have hrun : s.directory.run effects = _ := (hopen.laid.plain.run effects).1
  rw [hrun]
  exact ⟨later, hlater, htells.of_pending himage fun saved hsaved =>
    hpending _ (hopen.image_le saved hsaved)⟩

/-- Once the image is in its place, it does not matter which of the sealed files are left. -/
theorem Kept.exists_of_cleaning (h : Kept signature feedEpoch s) {now : Nat}
    (hseal : s.CanSeal now) {saved : Directory}
    (hsaved : ImageFile.save (s.sealedLog now).directory (s.image now) = (.ok (), saved))
    {effects : List FileEffect} (heffects : effects ⊆ Log.cleanupEffects saved (s.nextSeal now)) :
    ∃ layout, Laid (saved.run effects).2 layout ∧
      Tells signature feedEpoch layout (some s.pictured) := by
  obtain ⟨image, segments, -, hopen, hgiven, -, htells⟩ := h.exists_of_sealed hseal
  have hfits : ImageFile.fits (s.image now) = true := by
    by_contra hlarge
    obtain ⟨_, herror, -⟩ := hopen.save_of_not_fits (Bool.eq_false_of_not_eq_true hlarge)
    rw [herror] at hsaved
    cases hsaved
  obtain ⟨later, hsave, hlater⟩ := hopen.save ⟨h.fits, hseal.lt, hfits⟩ hgiven.ge
  obtain rfl : later = saved := congrArg Prod.snd (hsave.symm.trans hsaved)
  obtain ⟨kept, hkept, -, hpending, -⟩ := hlater.laid.removing fun effect heffect =>
    hlater.laid.exists_of_cleanup (heffects heffect)
  have hrun : later.run effects = _ := (hlater.laid.plain.run effects).1
  rw [hrun]
  refine ⟨_, hkept, htells.of_pending rfl ?_⟩
  rintro _ ⟨⟩
  exact hpending _ (Nat.le_refl _)

theorem Kept.exists_of_crash (h : Kept signature feedEpoch s) (hcrash : s.Crash directory history) :
    ∃ layout, Laid directory layout ∧ Tells signature feedEpoch layout history := by
  obtain ⟨image, segments, batches, hopen, htells⟩ := h.stored
  induction hcrash with
  | idle => exact ⟨_, hopen.laid, htells⟩
  | logged hcommits =>
      obtain ⟨_, _, _, hlogged, htells⟩ := (h.commit hcommits).stored
      exact ⟨_, hlogged.laid, htells⟩
  | sealing hseal heffects => exact h.exists_of_sealing hseal heffects
  | @saving now hseal effects heffects hne =>
      obtain ⟨image, segments, -, hsealed, -, htells, -⟩ := h.exists_of_sealed hseal
      rw [(hsealed.laid.plain.run effects).1]
      exact ⟨_, hsealed.laid.saving heffects hne, htells⟩
  | cleaning hseal hsaved heffects => exact h.exists_of_cleaning hseal hsaved heffects
  | discarding hbare =>
      obtain ⟨bare, hrun, hopen⟩ := hopen.removeImage
      obtain rfl := congrArg Prod.snd (hrun.symm.trans hbare)
      exact ⟨_, hopen.laid, rfl⟩
  | @clearing directory _ effects heffects ih =>
      obtain ⟨layout, hlaid, hnone⟩ := ih
      obtain ⟨later, hlater, himage⟩ := hlaid.discarding heffects
      rw [(hlaid.plain.run effects).1]
      exact ⟨later, hlater, himage.trans hnone⟩
  | opening _ hlog ih =>
      obtain ⟨layout, hlaid, htells⟩ := ih
      obtain ⟨opened, hopened, -, hlater⟩ := Log.laid_openIn hlaid
      obtain rfl := Except.ok.inj (hopened.symm.trans hlog)
      exact ⟨_, hlater, htells.of_pending rfl fun _ _ => rfl⟩

/-- The invariant of every session. -/
theorem Runs.kept (h : Runs signature feedEpoch s) : Kept signature feedEpoch s := by
  induction h with
  | start hopen name reducer => exact kept_start name reducer hopen
  | commit _ hcommits ih => exact ih.commit hcommits
  | snapshot _ hseal ih => exact ih.snapshot hseal
  | reload _ hdistinct hfits ih => exact ih.reload hdistinct hfits
  | reopen _ hcrash hexact hseals hopen htail name reducer ih =>
      obtain ⟨layout, hlaid, htells⟩ := ih.exists_of_crash hcrash
      exact kept_reopen name reducer hlaid htells hexact hseals hopen htail

/-- What recovery has to give back of a history: the position and the entries of every document, so
that an index which is filled with them has the same entries as any index that holds them. -/
structure Restores (recovered : Recovered) (past : History) : Prop where
  shows : recovered.Shows past.position past.contents
  entries_eq : ∀ index store : IndexStore, store.Holds past.contents →
    (index.replaceAll recovered.docs recovered.position).current.entries = store.current.entries

theorem restores_of_shows {recovered : Recovered} {past : History}
    (h : recovered.Shows past.position past.contents) : Restores recovered past := by
  refine ⟨h, fun index store hstore => ?_⟩
  have hindex := IndexStore.holds_replaceAll index h.lists.nodup recovered.position
  rw [h.lists.setAll_eq] at hindex
  exact hindex.entries_unique hstore

theorem exists_restores_iff {checkpoint : Checkpoint} {layout : Layout}
    (hlaid : Laid checkpoint.directory layout) {past : History}
    (htells : Tells checkpoint.signature checkpoint.feedEpoch layout (some past))
    {tail : Position} (htail : ∀ p, past.position.seq p ≤ tail.seq p) :
    (∃ recovered, (checkpoint.recover tail).1 = .ok (some recovered) ∧ Restores recovered past) ↔
      past.Exact := by
  rw [History.exact_iff]
  by_cases hreadable : past.Readable
  · obtain ⟨found, hrecover, hfound⟩ := recover_of_readable hlaid htells htail hreadable
    rw [hrecover]
    constructor
    · rintro ⟨_, ⟨⟩, hrestores⟩
      refine ⟨hreadable, ?_⟩
      rw [← hfound.lists.setAll_eq, hrestores.shows.lists.setAll_eq]
    · rintro ⟨-, hsame⟩
      rw [hsame] at hfound
      exact ⟨found, rfl, restores_of_shows hfound⟩
  · rw [recover_of_not_readable hlaid htells hreadable]
    constructor
    · rintro ⟨_, ⟨⟩, -⟩
    · rintro ⟨hyes, -⟩
      exact absurd hyes hreadable

/-- Whatever a view has been through, and wherever it crashed: its stored state can be opened. If
there is no image, there is nothing to recover. Otherwise all of the history comes back exactly if
its values can be read and those in the view are read as what they were; if all can be read, the
documents come back as their texts give them, and if some cannot, nothing does. -/
theorem restores_iff_exact (hruns : Runs signature feedEpoch s)
    (hcrash : s.Crash directory history) {tail : Position}
    (htail : ∀ past, history = some past → ∀ p, past.position.seq p ≤ tail.seq p) :
    (∀ past, s.history = some past →
      past.position = s.store.position ∧ s.store.Holds past.contents) ∧
    ∃ checkpoint, Checkpoint.openIn directory signature feedEpoch = .ok checkpoint ∧
      match history with
      | none => directory.content? ImageFile.fileName = none ∧
          (checkpoint.recover tail).1 = .ok none
      | some past =>
          ((∃ recovered, (checkpoint.recover tail).1 = .ok (some recovered) ∧
            Restores recovered past) ↔ past.Exact) ∧
          (past.Readable → ∃ recovered, (checkpoint.recover tail).1 = .ok (some recovered) ∧
            recovered.Shows past.position past.contents.reread) ∧
          (¬past.Readable → (checkpoint.recover tail).1 = .error .unreadableValue) := by
  have hkept := hruns.kept
  obtain ⟨layout, hlaid, htells⟩ := hkept.exists_of_crash hcrash
  obtain ⟨log, hlog, -, hlater⟩ := Log.laid_openIn hlaid
  have hopened : Tells signature feedEpoch
      ⟨layout.image, layout.sealed, some (layout.current.getD [])⟩ history :=
    htells.of_pending rfl fun _ _ => rfl
  have hfound : Laid (Checkpoint.mk signature feedEpoch log).directory
      ⟨layout.image, layout.sealed, some (layout.current.getD [])⟩ := hlater
  constructor
  · intro past hpast
    obtain ⟨hposition, hcontents⟩ := hkept.current past hpast
    rw [hcontents]
    exact ⟨hposition, hkept.holds⟩
  refine ⟨⟨signature, feedEpoch, log⟩, by rw [Checkpoint.openIn, hlog]; rfl, ?_⟩
  cases history with
  | none =>
      constructor
      · rw [hlaid.image, show layout.image = none from htells]
        rfl
      · rw [Checkpoint.recover_of_no_image hfound hopened]
  | some past =>
      refine ⟨exists_restores_iff hfound hopened (htail past rfl), fun hreadable => ?_,
        fun hreadable => ?_⟩
      · obtain ⟨recovered, hrecover, hshows⟩ :=
          recover_of_readable hfound hopened (htail past rfl) hreadable
        exact ⟨recovered, congrArg Prod.fst hrecover, hshows⟩
      · exact congrArg Prod.fst (recover_of_not_readable hfound hopened hreadable)

/-! ## A view of one document -/

/-- A view that was just loaded with one document. -/
def loaded (value : Json) : Session :=
  let log := Log.ofDirectory (({} : Directory).setContent Log.fileName Log.header) 0
  reload ⟨⟨0, 0, log⟩, .empty "view" none, none, 0⟩ [⟨"doc", [(⟨[0x80]⟩, value)]⟩] ∅

theorem canSeal_loaded (value : Json) : (loaded value).CanSeal 1 where
  clock := Nat.lt_of_lt_of_le Nat.zero_lt_one (Nat.le_max_left _ _)
  lt := by
    have hsame : (loaded value).nextSeal 1 = (loaded .null).nextSeal 1 := rfl
    rw [hsame]
    decide +kernel

theorem runs_snapshot_loaded (value : Json) : Runs 0 0 ((loaded value).snapshot 1) := by
  have hdistinct : ([⟨"doc", [(⟨[0x80]⟩, value)]⟩].map DocUpdate.docId).Nodup :=
    List.nodup_singleton _
  exact ((Runs.start rfl "view" none).reload hdistinct Position.fits_empty).snapshot
    (canSeal_loaded value)

theorem contents_loaded (value : Json) : (loaded value).pictured.contents
    = Contents.empty.setAll [⟨"doc", [(⟨[0x80]⟩, value)]⟩] := by
  have hdistinct : ([⟨"doc", [(⟨[0x80]⟩, value)]⟩].map DocUpdate.docId).Nodup :=
    List.nodup_singleton _
  exact Checkpoint.contents_eq (IndexStore.holds_replaceAll _ hdistinct _)

theorem crash_loaded {value : Json} (hsaved : ((loaded value).checkpoint.writeSnapshot
      (loaded value).store.current 1).1 = .ok ()) :
    ((loaded value).snapshot 1).Crash ((loaded value).snapshot 1).directory
      (some (loaded value).pictured) := by
  have hhistory : ((loaded value).snapshot 1).history = some (loaded value).pictured := by
    simp [Session.snapshot, hsaved]
  rw [← hhistory]
  exact .idle

theorem exact_loaded {value : Json} (h : Json.parse? value.compact = some value) :
    (loaded value).pictured.Exact := by
  have hvalue : ∀ docId, ∀ entry ∈ (loaded value).pictured.contents docId, entry.2 = value := by
    rw [contents_loaded]
    apply Contents.forall_mem_setAll
    · intro docId entry hentry
      cases hentry
    · simp
  refine ⟨⟨fun docId entry hentry => ?_, fun _ hcommit => ?_⟩, fun docId entry hentry => ?_⟩
  · rw [hvalue docId entry hentry, Json.readable, h]
    rfl
  · cases hcommit
  · rw [hvalue docId entry hentry, h]

/-- A document with a number comes back. -/
theorem restores_loaded : ∃ checkpoint recovered,
    Checkpoint.openIn ((loaded (.number (.int 7))).snapshot 1).directory 0 0 = .ok checkpoint ∧
      (checkpoint.recover ∅).1 = .ok (some recovered) ∧
      Restores recovered (loaded (.number (.int 7))).pictured := by
  have htail : ∀ past, some (loaded (.number (.int 7))).pictured = some past →
      ∀ p, past.position.seq p ≤ Position.seq ∅ p := by
    rintro _ ⟨⟩ p
    exact Nat.le_refl _
  have hexact : (loaded (.number (.int 7))).pictured.Exact := exact_loaded (by decide +kernel)
  obtain ⟨-, checkpoint, hopen, hrecover, -⟩ := restores_iff_exact
    (runs_snapshot_loaded (.number (.int 7))) (crash_loaded (by decide +kernel)) htail
  obtain ⟨recovered, hfound, hrestores⟩ := hrecover.mpr hexact
  exact ⟨checkpoint, recovered, hopen, hfound, hrestores⟩

/-- A fraction of sixteen digits does not: its text is read as the number below it. -/
theorem not_restores_loaded : ∃ s past checkpoint recovered, Runs 0 0 s ∧
    s.Crash s.directory (some past) ∧ Checkpoint.openIn s.directory 0 0 = .ok checkpoint ∧
      (checkpoint.recover past.position).1 = .ok (some recovered) ∧ ¬Restores recovered past := by
  let value : Json := .number (.real ⟨0x3FEE08FA3383A6F4⟩)
  let other : Json := .number (.real ⟨0x3FEE08FA3383A6F3⟩)
  let doc : DocUpdate := ⟨"doc", [(⟨[0x80]⟩, other)]⟩
  have hrecover : ((Checkpoint.openIn ((loaded value).snapshot 1).directory 0 0).bind
      fun checkpoint => (checkpoint.recover ∅).1) = .ok (some ⟨∅, [doc], 0, 0⟩) := by
    decide +kernel
  cases hopen : Checkpoint.openIn ((loaded value).snapshot 1).directory 0 0 with
  | error e =>
      rw [hopen] at hrecover
      cases hrecover
  | ok checkpoint =>
      rw [hopen] at hrecover
      refine ⟨_, _, checkpoint, _, runs_snapshot_loaded value, crash_loaded (by decide +kernel),
        hopen, hrecover, fun hrestores => ?_⟩
      have hdoc := ((hrestores.shows.lists.mem_iff doc).mp (List.mem_singleton_self _)).2
      rw [contents_loaded] at hdoc
      revert hdoc
      decide +kernel

end ViewIndex.Storage.Session
