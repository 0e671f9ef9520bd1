import ViewIndex.Proofs.Key.Shown
import ViewIndex.Proofs.Query.Answers

/-!
# Looking up what was shown

The key of a row stands for the key of its entry. It gives the same encoded key when it is read as a
key again, no other key is shown as the same value, and a query for it reads the entries under that
key and no others.

The key of a row is taken as the value that it is in memory. A value that was printed and is read
from its text again may have a neighbouring number in place of one of its own, and be another key.
-/

namespace ViewIndex

theorem encodeQueryKey_toJson {key : EncodedKey} {parts : Key} (h : key.Decodes parts) :
    encodeQueryKey parts.toJson = .ok key := by
  rw [encodeQueryKey, h.ofJson_toJson]
  exact congrArg (Except.mapError QueryError.key) h.encode_eq

/-- The range of a key holds the entries under that key. -/
theorem KeyRange.holds_exact_iff {key : EncodedKey} {id : EntryId} :
    (exact key).holds id = true ↔ id.key = key := by
  have hholds : (exact key).holds id = (compare id.key key == .eq) := by
    simp only [holds, exact, between, Cut.isAfter, if_true]
    cases compare id.key key <;> rfl
  rw [hholds, beq_iff_eq, Std.LawfulEqCmp.compare_eq_iff_eq]

/-! ## Queries for one key -/

namespace QueryOptions

/-- A query for one key, which neither selects entries in another way as well nor goes on with an
earlier one. -/
structure LooksUp (options : QueryOptions) (key : Json) : Prop where
  key_eq : options.key = some key
  selectorCount_eq : options.selectorCount = 1
  continuation_eq : options.continuation = none

variable {options : QueryOptions} {value : Json} {key : EncodedKey} {reducer : Option Reducer}
  {shape : RowShape}

theorem LooksUp.keys_eq (h : options.LooksUp value) : options.keys = none := by
  have hcount := h.selectorCount_eq
  rw [selectorCount, h.key_eq] at hcount
  cases hkeys : options.keys with
  | none => rfl
  | some keys => simp [hkeys] at hcount

/-- A query for one key reads the range of that key. -/
theorem LooksUp.plan_eq (h : options.LooksUp value) (hkey : encodeQueryKey value = .ok key)
    (hshape : options.shape reducer = .ok shape) :
    options.plan reducer = .ok ⟨[.exact key], shape⟩ := by
  have hcheck : options.checkSelectors shape = .ok () := by
    rw [checkSelectors_eq h.keys_eq, h.selectorCount_eq]
    rfl
  have hranges : options.selectedRanges = .ok [.exact key] := by
    simp only [selectedRanges, h.keys_eq, h.key_eq, hkey]
    rfl
  rw [plan_eq_ok hshape hcheck hranges, leftOf, h.continuation_eq]

end QueryOptions

namespace Snapshot

variable {snapshot : Snapshot} {options : QueryOptions} {reducer : Option Reducer} {r : Reducer}
  {key : EncodedKey} {value : Json}

/-- The entries under one key, in the direction of travel. -/
def under (snapshot : Snapshot) (descending : Bool) (key : EncodedKey) : List Entry :=
  (snapshot.tree.listing descending).filter fun e => e.id.key = key

theorem met_exact (snapshot : Snapshot) (descending : Bool) (key : EncodedKey) :
    snapshot.tree.met descending (.exact key) = snapshot.under descending key :=
  List.filter_congr fun _ _ => Bool.eq_iff_iff.mpr (by simpa using KeyRange.holds_exact_iff)

/-- A query finds what stands under a key: whatever its rows stand for, it reads the entries under
the key and no others, and unless they are reduced or time runs out, it has the rows of these
entries, or of the page of them that is asked for. -/
structure Finds (snapshot : Snapshot) (reducer : Option Reducer) (options : QueryOptions)
    (key : EncodedKey) : Prop where
  range : ∀ shape, options.shape reducer = .ok shape →
    ∃ range, options.plan reducer = .ok ⟨[range], shape⟩ ∧
      ∀ id, range.holds id = true ↔ id.key = key
  rows : options.shape reducer = .ok .entries → (∀ n, options.expired n = false) →
    ∃ result, snapshot.query reducer options = .ok result ∧
      (limited options.limit ((snapshot.under options.descending key).drop options.skip)).mapM
        entryRow = .ok result.rows

theorem finds_of_looksUp (h : snapshot.tree.WellFormed r)
    (hdecodes : ∀ e ∈ snapshot.tree.toList, ∃ parts, e.id.key.Decodes parts)
    (hkey : encodeQueryKey value = .ok key) (hoptions : options.LooksUp value) :
    snapshot.Finds reducer options key where
  range shape hshape := ⟨.exact key, hoptions.plan_eq hkey hshape, fun _ =>
    KeyRange.holds_exact_iff⟩
  rows hshape hclock := by
    have hplan := hoptions.plan_eq hkey hshape
    let page := snapshot.listRanges options [.exact key] options.skip 0
    have hrows : page.rows
        = limited options.limit ((snapshot.under options.descending key).drop options.skip) := by
      simp [page, rows_listRanges h hclock, met_exact]
    have hmem : ∀ e ∈ page.rows, ∃ parts, e.id.key.Decodes parts := fun e he =>
      hdecodes e (mem_toList_of_mem_rows h he)
    exact ⟨_, query_eq_of_plan hplan rfl (mapM_entryRow hmem), hrows ▸ mapM_entryRow hmem⟩

end Snapshot

namespace IndexStore

/-- A key whose numbers are finite is shown as a value that gives its encoded form when it is used
as a key again. Two encoded keys are shown as one value, numbers being compared by what they denote,
just if they are the same. And after any writes of encoded keys, a query for the key in the row of
an entry finds what stands under the key of that entry. -/
theorem shownKey_identifies :
    (∀ a : Key, KeyPart.allFinite a = true → ∃ key shown, a.encode = .ok key ∧
      Snapshot.shownKey key = .ok shown ∧ encodeQueryKey shown = .ok key) ∧
    (∀ (a b : Key) (key other : EncodedKey), a.encode = .ok key → b.encode = .ok other →
      ∀ shown shownOther, Snapshot.shownKey key = .ok shown →
        Snapshot.shownKey other = .ok shownOther → (shown.Coincides shownOther ↔ key = other)) ∧
    ∀ (view : View) (writes : List Write), (∀ w ∈ writes, w.Distinct) →
      (∀ w ∈ writes, w.Encoded) →
      let snapshot := (writes.foldl write (empty view.name view.reducer)).current
      ∀ e ∈ snapshot.tree.toList, ∃ row, Snapshot.entryRow e = .ok row ∧
        ∀ options : QueryOptions, options.LooksUp row.key →
          snapshot.Finds view.reducer options e.id.key := by
  refine ⟨fun a hfinite => ?_, ?_, ?_⟩
  · obtain ⟨bytes, hbytes⟩ := KeyPart.encodeItems_of_allFinite a hfinite
    have hdecodes := Key.decodes_of_encode (Key.encode_of_encodeItems hbytes)
    exact ⟨⟨bytes⟩, _, Key.encode_of_encodeItems hbytes, Snapshot.shownKey_eq hdecodes,
      encodeQueryKey_toJson hdecodes⟩
  · intro a b key other hkey hother shown shownOther hshown hshownOther
    have hdecodes := Key.decodes_of_encode hkey
    have hdecodesOther := Key.decodes_of_encode hother
    rw [Snapshot.shownKey_eq hdecodes, Except.ok.injEq] at hshown
    rw [Snapshot.shownKey_eq hdecodesOther, Except.ok.injEq] at hshownOther
    rw [← hshown, ← hshownOther]
    exact hdecodes.coincides_iff hdecodesOther
  · intro view writes hdistinct hencoded snapshot e he
    obtain ⟨hholds, -⟩ := (holds_empty view.name view.reducer).foldl_write hdistinct
    have hkeys := Contents.encoded_empty.foldl_write hencoded
    have hdecodes : ∀ e ∈ snapshot.tree.toList, ∃ parts, e.id.key.Decodes parts :=
      fun e he => hholds.decodes hkeys he
    obtain ⟨parts, hparts⟩ := hdecodes e he
    refine ⟨e.plain.row, Snapshot.entryRow_eq hparts, fun options hoptions => ?_⟩
    apply Snapshot.finds_of_looksUp hholds.reflects.wellFormed hdecodes
      (encodeQueryKey_toJson hparts)
    rwa [PlainEntry.row, hparts.plain_key] at hoptions

/-- A number, and an array with a negative zero and a text with a zero character. -/
def measure (bits : UInt64) : Key :=
  [.number ⟨bits⟩, .array [.number ⟨Binary64.signBit⟩, .text "a\x00b"]]

/-- The key of the greatest integer that is shown as one. -/
def lastInteger : EncodedKey := (measure 0x433FF973CAFA7FFF).encode.toOption.getD default

/-- The key of the integer after that, which is shown as a floating-point number. -/
def firstReal : EncodedKey := (measure 0x433FF973CAFA8000).encode.toOption.getD default

/-- Two documents under one key, and one of them under the other one as well. -/
def measured : List Write := [.applyBatch
  [⟨"a", [(lastInteger, .nat 1), (firstReal, .nat 2)]⟩, ⟨"b", [(lastInteger, .nat 3)]⟩] none]

theorem encode_measure : (measure 0x433FF973CAFA7FFF).encode = .ok lastInteger ∧
    (measure 0x433FF973CAFA8000).encode = .ok firstReal := by decide +kernel

theorem encoded_measured : ∀ w ∈ measured, w.Encoded := by
  have hkeys : ∀ key ∈ [lastInteger, firstReal], ∃ parts : Key, parts.encode = .ok key := by
    simp only [List.forall_mem_cons]
    exact ⟨⟨_, encode_measure.1⟩, ⟨_, encode_measure.2⟩, nofun⟩
  simp only [measured, List.forall_mem_singleton, Write.Encoded]
  intro update hupdate entry hentry
  apply hkeys
  simp only [List.mem_cons, List.not_mem_nil, or_false] at hupdate ⊢
  rcases hupdate with rfl | rfl
  · simp only [List.mem_cons, List.not_mem_nil, or_false] at hentry
    exact hentry.imp (congrArg Prod.fst) (congrArg Prod.fst)
  · exact .inl (congrArg Prod.fst (List.mem_singleton.mp hentry))

theorem distinct_measured : ∀ w ∈ measured, w.Distinct := by
  simp [measured, Write.Distinct]

/-- On both sides of the bound for integers, and of the entries under one of the keys the last. -/
theorem shownKey_identifies_measured :
    let shown (n : Json.Number) : Json :=
      .array [.number n, .array [.number (.int 0), .text "a\x00b"]]
    let lower := shown (.int 8999999999999999)
    let upper := shown (.real ⟨0x433FF973CAFA8000⟩)
    let row : ViewRow := ⟨lower, .nat 3, some "b"⟩
    let snapshot := (measured.foldl write (empty "t" none)).current
    (∃ key shown, (measure 0x433FF973CAFA7FFF).encode = .ok key ∧
      Snapshot.shownKey key = .ok shown ∧ encodeQueryKey shown = .ok key) ∧
    (Snapshot.shownKey lastInteger = .ok lower ∧ Snapshot.shownKey firstReal = .ok upper ∧
      ¬lower.Coincides upper) ∧
    ⟨⟨lastInteger, "b", 0⟩, .nat 3⟩ ∈ snapshot.tree.toList ∧
    Snapshot.entryRow ⟨⟨lastInteger, "b", 0⟩, .nat 3⟩ = .ok row ∧
    ∃ result, result.rows = [row] ∧
      snapshot.query none { key := some lower, descending := true, limit := some 1 }
        = .ok result := by
  intro shown lower upper row snapshot
  obtain ⟨hkeys, hcoincides, hfinds⟩ := shownKey_identifies
  have hlower : Snapshot.shownKey lastInteger = .ok lower := by decide +kernel
  have hupper : Snapshot.shownKey firstReal = .ok upper := by decide +kernel
  have hne : lastInteger ≠ firstReal := by decide +kernel
  have hmem : ⟨⟨lastInteger, "b", 0⟩, .nat 3⟩ ∈ snapshot.tree.toList := by decide +kernel
  have hentry : Snapshot.entryRow ⟨⟨lastInteger, "b", 0⟩, .nat 3⟩ = .ok row := by decide +kernel
  have hunder : ((snapshot.under true lastInteger).take 1).mapM Snapshot.entryRow
      = .ok [row] := by decide +kernel
  obtain ⟨found, hfound, hrows⟩ := hfinds { name := "t", map := fun _ => .emitted [] } measured
    distinct_measured encoded_measured _ hmem
  obtain rfl : row = found := Except.ok.inj (hentry.symm.trans hfound)
  have hlookup := hrows { key := some lower, descending := true, limit := some 1 } ⟨rfl, rfl, rfl⟩
  obtain ⟨result, hresult, hlisted⟩ := hlookup.rows rfl fun _ => rfl
  refine ⟨hkeys _ (by decide +kernel), ⟨hlower, hupper, fun h => hne ?_⟩, hmem, hentry, result,
    Except.ok.inj (hlisted.symm.trans hunder), hresult⟩
  exact (hcoincides _ _ _ _ encode_measure.1 encode_measure.2 _ _ hlower hupper).mp h

end IndexStore

end ViewIndex
