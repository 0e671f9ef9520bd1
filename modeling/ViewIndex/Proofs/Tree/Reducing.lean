import ViewIndex.Proofs.Tree.Counting

/-!
# Reducing a range

If combining aggregates is associative and the aggregate of nothing is its unit, the aggregate of
entries does not depend on how they are parted. Then what the nodes of a tree carry is the aggregate
of their subtrees' values one after the other, and the two paths by which a range is reduced come to
the aggregate of the values in the range.
-/

namespace ViewIndex

namespace Reducer

variable {r : Reducer}

/-- The aggregates that a reducer comes to. -/
inductive Produces (r : Reducer) : Aggregate → Prop
  | identity : Produces r r.identity
  | leaf (value : Json) : Produces r (r.leaf value)
  | combine {a b : Aggregate} : Produces r a → Produces r b → Produces r (r.combine a b)

/-- On the aggregates that a reducer comes to, combining is associative, and the aggregate of
nothing is its unit. -/
structure Lawful (r : Reducer) : Prop where
  assoc : ∀ {a b c : Aggregate}, r.Produces a → r.Produces b → r.Produces c →
    r.combine (r.combine a b) c = r.combine a (r.combine b c)
  identity_combine : ∀ {a : Aggregate}, r.Produces a → r.combine r.identity a = a
  combine_identity : ∀ {a : Aggregate}, r.Produces a → r.combine a r.identity = a

theorem Produces.exists_count {a : Aggregate} (h : Reducer.count.Produces a) :
    ∃ n, a = .count n := by
  induction h with
  | identity => exact ⟨0, rfl⟩
  | leaf _ => exact ⟨1, rfl⟩
  | combine _ _ iha ihb =>
      obtain ⟨m, rfl⟩ := iha
      obtain ⟨n, rfl⟩ := ihb
      exact ⟨m + n, rfl⟩

theorem lawful_count : Reducer.count.Lawful where
  assoc ha hb hc := by
    obtain ⟨k, rfl⟩ := ha.exists_count
    obtain ⟨m, rfl⟩ := hb.exists_count
    obtain ⟨n, rfl⟩ := hc.exists_count
    exact congrArg Aggregate.count (Nat.add_assoc k m n)
  identity_combine ha := by
    obtain ⟨n, rfl⟩ := ha.exists_count
    exact congrArg Aggregate.count (Nat.zero_add n)
  combine_identity ha := by
    obtain ⟨n, rfl⟩ := ha.exists_count
    exact congrArg Aggregate.count (Nat.add_zero n)

section Custom

variable {functions : CustomReducer} {kind : Json → Prop} (hidentity : kind functions.identity)
  (hleaf : ∀ value, kind (functions.leaf value))
  (hcombine : ∀ {a b}, kind a → kind b → kind (functions.combine a b))

include hidentity hleaf hcombine

/-- Whatever kind of JSON the functions of a reducer stay within, its aggregates are of it. -/
theorem Produces.exists_custom {a : Aggregate} (h : (Reducer.custom functions).Produces a) :
    ∃ value, kind value ∧ a = .custom value := by
  induction h with
  | identity => exact ⟨functions.identity, hidentity, rfl⟩
  | leaf value => exact ⟨functions.leaf value, hleaf value, rfl⟩
  | combine _ _ iha ihb =>
      obtain ⟨x, hx, rfl⟩ := iha
      obtain ⟨y, hy, rfl⟩ := ihb
      exact ⟨functions.combine x y, hcombine hx hy, rfl⟩

/-- A reducer given by functions is lawful if these keep the laws on a kind of JSON that they do not
leave. -/
theorem lawful_custom
    (hassoc : ∀ {a b c}, kind a → kind b → kind c →
      functions.combine (functions.combine a b) c = functions.combine a (functions.combine b c))
    (hleft : ∀ {a}, kind a → functions.combine functions.identity a = a)
    (hright : ∀ {a}, kind a → functions.combine a functions.identity = a) :
    (Reducer.custom functions).Lawful where
  assoc ha hb hc := by
    obtain ⟨x, hx, rfl⟩ := ha.exists_custom hidentity hleaf hcombine
    obtain ⟨y, hy, rfl⟩ := hb.exists_custom hidentity hleaf hcombine
    obtain ⟨z, hz, rfl⟩ := hc.exists_custom hidentity hleaf hcombine
    exact congrArg Aggregate.custom (hassoc hx hy hz)
  identity_combine ha := by
    obtain ⟨x, hx, rfl⟩ := ha.exists_custom hidentity hleaf hcombine
    exact congrArg Aggregate.custom (hleft hx)
  combine_identity ha := by
    obtain ⟨x, hx, rfl⟩ := ha.exists_custom hidentity hleaf hcombine
    exact congrArg Aggregate.custom (hright hx)

end Custom

/-! ## Values one after the other -/

theorem reduceValues_concat (values : List Json) (value : Json) :
    r.reduceValues (values ++ [value]) = r.combine (r.reduceValues values) (r.leaf value) :=
  List.foldl_concat ..

theorem produces_reduceValues (values : List Json) : r.Produces (r.reduceValues values) := by
  induction values using List.reverseRecOn with
  | nil => exact .identity
  | append_singleton values value ih =>
      rw [reduceValues_concat]
      exact .combine ih (.leaf value)

theorem reduceValues_append (h : r.Lawful) (a b : List Json) :
    r.reduceValues (a ++ b) = r.combine (r.reduceValues a) (r.reduceValues b) := by
  induction b using List.reverseRecOn with
  | nil =>
      rw [List.append_nil]
      exact (h.combine_identity (produces_reduceValues a)).symm
  | append_singleton b value ih =>
      rw [← List.append_assoc, reduceValues_concat, reduceValues_concat, ih,
        h.assoc (produces_reduceValues a) (produces_reduceValues b) (.leaf value)]

theorem reduceValues_cons (h : r.Lawful) (value : Json) (rest : List Json) :
    r.reduceValues (value :: rest) = r.combine (r.leaf value) (r.reduceValues rest) := by
  have hone : r.reduceValues [value] = r.leaf value := h.identity_combine (.leaf value)
  rw [← List.singleton_append, reduceValues_append h, hone]

/-- The aggregate of entries one after the other. -/
def total (r : Reducer) (entries : List Entry) : Aggregate :=
  r.reduceValues (entries.map Entry.value)

theorem produces_total (entries : List Entry) : r.Produces (r.total entries) :=
  produces_reduceValues _

theorem total_append (h : r.Lawful) (a b : List Entry) :
    r.total (a ++ b) = r.combine (r.total a) (r.total b) := by
  rw [total, List.map_append, reduceValues_append h]
  rfl

theorem total_append_cons (h : r.Lawful) (left right : List Entry) (entry : Entry) :
    r.total (left ++ entry :: right)
      = r.combine (r.combine (r.total left) (r.leaf entry.value)) (r.total right) := by
  have hentry : r.total (entry :: right) = r.combine (r.leaf entry.value) (r.total right) :=
    reduceValues_cons h entry.value (right.map Entry.value)
  rw [total_append h, hentry,
    h.assoc (produces_total left) (.leaf entry.value) (produces_total right)]

theorem total_count (entries : List Entry) :
    Reducer.count.total entries = .count entries.length := by
  induction entries using List.reverseRecOn with
  | nil => rfl
  | append_singleton entries entry ih =>
      rw [total_append lawful_count, ih, List.length_append]
      rfl

end Reducer

namespace Tree

variable {r : Reducer} {tree : Tree}

/-- A sound tree carries the aggregate of its entries. -/
theorem Sound.agg_eq (hr : r.Lawful) {tree : Tree} (h : tree.Sound r) :
    tree.agg r = r.total tree.toList := by
  induction tree with
  | nil => rfl
  | node entry left right height len agg ihleft ihright =>
      obtain ⟨hl, hr', -, -, -, -, hagg⟩ := h
      rw [Tree.agg, hagg, aggregateOf, ihleft hl, ihright hr', toList, Reducer.total_append_cons hr]

/-! ## Between two cuts -/

/-- Whether an entry lies between two cuts, a missing cut being no bound. -/
def between (lo hi : Option Cut) (e : Entry) : Bool :=
  !lo.any (·.isAfter e.id) && !hi.any (!·.isAfter e.id)

section Between

variable {lo hi : Option Cut} {entries : List Entry} {entry : Entry}

theorem any_isAfter_of_lt {a b : Entry} (h : compare a.id b.id = .lt)
    (hb : lo.any (·.isAfter b.id) = true) : lo.any (·.isAfter a.id) = true := by
  cases lo with
  | none => cases hb
  | some cut => exact Cut.isAfter_of_lt h hb

theorem any_not_isAfter_of_lt {a b : Entry} (h : compare a.id b.id = .lt)
    (ha : hi.any (!·.isAfter a.id) = true) : hi.any (!·.isAfter b.id) = true := by
  cases hi with
  | none => cases ha
  | some cut =>
      simp only [Option.any_some, Bool.not_eq_true'] at ha ⊢
      rw [← Bool.not_eq_true] at ha ⊢
      exact fun hb => ha (Cut.isAfter_of_lt h hb)

/-- Nothing on the left of an entry before the range is in it. -/
theorem filter_between_of_isAfter (h : ∀ e ∈ entries, compare e.id entry.id = .lt)
    (hlo : lo.any (·.isAfter entry.id) = true) : entries.filter (between lo hi) = [] := by
  apply List.filter_eq_nil_iff.mpr
  intro e he
  simp [between, any_isAfter_of_lt (h e he) hlo]

/-- Nothing on the right of an entry behind the range is in it. -/
theorem filter_between_of_not_isAfter (h : ∀ e ∈ entries, compare entry.id e.id = .lt)
    (hhi : hi.any (!·.isAfter entry.id) = true) : entries.filter (between lo hi) = [] := by
  apply List.filter_eq_nil_iff.mpr
  intro e he
  simp [between, any_not_isAfter_of_lt (h e he) hhi]

/-- On the left of an entry that is not behind the range, the upper cut does not matter. -/
theorem filter_between_left (h : ∀ e ∈ entries, compare e.id entry.id = .lt)
    (hhi : ¬hi.any (!·.isAfter entry.id) = true) :
    entries.filter (between lo none) = entries.filter (between lo hi) := by
  apply List.filter_congr
  intro e he
  have hinside : hi.any (!·.isAfter e.id) = false := by
    rw [← Bool.not_eq_true]
    exact fun hany => hhi (any_not_isAfter_of_lt (h e he) hany)
  rw [between, between, hinside]
  rfl

/-- On the right of an entry that is not before the range, the lower cut does not matter. -/
theorem filter_between_right (h : ∀ e ∈ entries, compare entry.id e.id = .lt)
    (hlo : ¬lo.any (·.isAfter entry.id) = true) :
    entries.filter (between none hi) = entries.filter (between lo hi) := by
  apply List.filter_congr
  intro e he
  have hinside : lo.any (·.isAfter e.id) = false := by
    rw [← Bool.not_eq_true]
    exact fun hany => hlo (any_isAfter_of_lt (h e he) hany)
  rw [between, between, hinside]
  rfl

end Between

/-- Reducing the part of a tree between two cuts gives the aggregate of the entries there. -/
theorem reduceBetween_eq (hr : r.Lawful) (h : tree.WellFormed r) (lo hi : Option Cut) :
    tree.reduceBetween r lo hi = r.total (tree.toList.filter (between lo hi)) := by
  obtain ⟨hascending, hsound⟩ := h
  induction tree generalizing lo hi with
  | nil => rfl
  | node entry left right height len agg ihleft ihright =>
      obtain ⟨hleft, hright, hbelow, habove⟩ := ascending_append_cons.mp hascending
      have hwhole := hsound.agg_eq hr
      obtain ⟨hl, hr', -⟩ := hsound
      rw [toList] at hwhole
      rw [reduceBetween, toList, List.filter_append]
      split
      next hnone =>
        simp only [Bool.and_eq_true, Option.isNone_iff_eq_none] at hnone
        obtain ⟨rfl, rfl⟩ := hnone
        have hall (entries : List Entry) : entries.filter (between none none) = entries :=
          List.filter_eq_self.mpr fun _ _ => rfl
        rw [hall, hall]
        exact hwhole
      next =>
        split
        -- The entry lies before the range, and so do those on the left.
        next hlo =>
          rw [ihright lo hi hright hr', filter_between_of_isAfter hbelow hlo, List.nil_append,
            List.filter_cons_of_neg (by simp [between, hlo])]
        next hlo =>
          split
          -- The entry lies behind the range, and so do those on the right.
          next hhi =>
            rw [ihleft lo hi hleft hl, List.filter_cons_of_neg (by simp [between, hhi]),
              filter_between_of_not_isAfter habove hhi, List.append_nil]
          next hhi =>
            rw [ihleft lo none hleft hl, ihright none hi hright hr', filter_between_left hbelow hhi,
              filter_between_right habove hlo,
              List.filter_cons_of_pos (by simp [between, hlo, hhi]), Reducer.total_append_cons hr]

/-- Reducing a range gives the aggregate of the entries that it holds. -/
theorem reduce_eq_total (hr : r.Lawful) (h : tree.WellFormed r) (range : KeyRange) :
    tree.reduce r range.lo range.hi = r.total (tree.met false range) := by
  rw [reduce, reduceBetween_eq hr h]
  congr 1
  apply List.filter_congr
  intro e _
  simp [between, KeyRange.holds]

theorem reduce_count (h : tree.WellFormed .count) (descending : Bool) (range : KeyRange) :
    tree.reduce .count range.lo range.hi = .count (tree.met descending range).length := by
  rw [reduce_eq_total Reducer.lawful_count h, Reducer.total_count, length_met h, length_met h]

/-- Reducing between two cuts, crossing ones included, gives the aggregate of the values of exactly
the entries that lie behind the one and before the other, in their order. -/
theorem reduce_eq_reduceValues (hr : r.Lawful) (h : tree.WellFormed r) (lo hi : Cut) :
    tree.reduce r lo hi = r.reduceValues
      ((tree.toList.filter fun e => !lo.isAfter e.id && hi.isAfter e.id).map Entry.value) :=
  reduce_eq_total hr h ⟨lo, hi⟩

section Collecting

/-- Lists the values in their order. -/
def collecting : CustomReducer where
  name := "_collect"
  leaf value := .array [value]
  combine
    | .array a, .array b => .array (a ++ b)
    | _, _ => .null
  identity := .array []

theorem lawful_collecting : (Reducer.custom collecting).Lawful := by
  let lists (value : Json) : Prop := ∃ items, value = .array items
  apply @Reducer.lawful_custom collecting lists
  · exact ⟨[], rfl⟩
  · exact fun value => ⟨[value], rfl⟩
  · rintro _ _ ⟨a, rfl⟩ ⟨b, rfl⟩
    exact ⟨a ++ b, rfl⟩
  · rintro _ _ _ ⟨a, rfl⟩ ⟨b, rfl⟩ ⟨c, rfl⟩
    exact congrArg Json.array (List.append_assoc a b c)
  · rintro _ ⟨a, rfl⟩
    rfl
  · rintro _ ⟨a, rfl⟩
    exact congrArg Json.array (List.append_nil a)

/-- Cuts among the entries of one key, whose values are not collected in any other order, and cuts
that cross. -/
theorem reduce_eq_reduceValues_collecting :
    let r := Reducer.custom collecting
    let lo := Cut.afterEntry (sampleEntry [0x10, 0x20] "a" 0).id
    let hi := Cut.afterDoc ⟨[0x10, 0x20]⟩ "b"
    let collected :=
      [(sampleEntry [0x10, 0x20] "a" 1).value, (sampleEntry [0x10, 0x20] "b" 0).value]
    (sampleTree r).reduce r lo hi = .custom (.array collected) ∧
    (sampleTree r).reduce r hi lo = .custom (.array []) ∧
    (sampleTree .count).reduce .count lo hi = .count 2 := by
  intro r lo hi collected
  have hheld : (sample.filter fun e => !lo.isAfter e.id && hi.isAfter e.id)
      = [sampleEntry [0x10, 0x20] "a" 1, sampleEntry [0x10, 0x20] "b" 0] := by decide
  have hcrossed : (sample.filter fun e => !hi.isAfter e.id && lo.isAfter e.id) = [] := by decide
  refine ⟨(reduce_eq_reduceValues lawful_collecting wellFormed_sampleTree lo hi).trans ?_,
    (reduce_eq_reduceValues lawful_collecting wellFormed_sampleTree hi lo).trans ?_,
    (reduce_eq_reduceValues Reducer.lawful_count wellFormed_sampleTree lo hi).trans ?_⟩
  · rw [toList_sampleTree, hheld]
    rfl
  · rw [toList_sampleTree, hcrossed]
    rfl
  · rw [toList_sampleTree, hheld]
    rfl

end Collecting

end Tree

end ViewIndex
