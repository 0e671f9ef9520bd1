import ViewIndex.Proofs.Key.Prefixes
import ViewIndex.Query.Plan

/-!
# What a query selects

Options select entries by their keys, as these are in the clear. A `Selector` says which entries
belong to one range of a query: those of one key, those whose keys begin with given components, or
those between two marks. The ranges of a plan hold exactly the entries that its selectors select.
-/

namespace ViewIndex

/-- An entry with the components of its key. -/
structure PlainEntry where
  key : Key
  docId : String
  ordinal : Nat
  value : Json

/-- By key, then by document, then by place among the entries of the document. -/
def PlainEntry.order (a b : PlainEntry) : Ordering :=
  (a.key.collate b.key).then ((compare a.docId b.docId).then (compare a.ordinal b.ordinal))

/-- The entry with its key decoded. -/
def Entry.plain (e : Entry) : PlainEntry where
  key := e.id.key.decode.toOption.getD []
  docId := e.id.docId
  ordinal := e.id.ordinal
  value := e.value

/-- A key at which a query starts or ends, possibly with a document under it. -/
structure Mark where
  key : Key
  docId : Option String

/-- How an entry compares with a mark: by the key alone, or by key and document. -/
def Mark.compare (e : PlainEntry) (mark : Mark) : Ordering :=
  match mark.docId with
  | none => e.key.collate mark.key
  | some docId => (e.key.collate mark.key).then (Ord.compare e.docId docId)

/-- What the entries of one range have in common. -/
inductive Selector where
  | exactly (key : Key)
  | startingWith (start : Key)
  | between (start finish : Option Mark)

namespace QueryOptions

/-- An order as it is in the direction of travel. -/
def turned (options : QueryOptions) (order : Ordering) : Ordering :=
  if options.descending then order.swap else order

/-- Whether an entry does not come before the start. -/
def startsAt (options : QueryOptions) (mark : Mark) (e : PlainEntry) : Bool :=
  (options.turned (mark.compare e)).isGE

/-- Whether an entry does not come after the end, or comes before it if the end is excluded. -/
def endsAt (options : QueryOptions) (mark : Mark) (e : PlainEntry) : Bool :=
  if options.inclusiveEnd then (options.turned (mark.compare e)).isLE
  else (options.turned (mark.compare e)).isLT

/-- Whether a selector selects an entry. -/
def selects (options : QueryOptions) (selector : Selector) (e : PlainEntry) : Bool :=
  match selector with
  | .exactly key => e.key.collate key == .eq
  | .startingWith start => Key.collate (e.key.take start.length) start == .eq
  | .between start finish =>
      start.all (options.startsAt · e) && finish.all (options.endsAt · e)

/-- The selectors of a query, one for each range. A document counts only with its key. -/
def selectors (options : QueryOptions) : Except KeyError (List Selector) := do
  match options.keys, options.key, options.leading with
  | some keys, _, _ => keys.mapM fun key => do return .exactly (← Key.ofJson key)
  | none, some key, _ => return [.exactly (← Key.ofJson key)]
  | none, none, some start => return [.startingWith (← Key.ofJson start)]
  | none, none, none =>
      let start ← options.startKey.mapM Key.ofJson
      let finish ← options.endKey.mapM Key.ofJson
      return [.between (start.map (⟨·, options.startDoc⟩)) (finish.map (⟨·, options.endDoc⟩))]

end QueryOptions

/-! ## Ranges hold what selectors select -/

namespace EncodedKey.Decodes

variable {e : Entry} {parts : Key}

theorem plain_key (h : e.id.key.Decodes parts) : e.plain.key = parts := by
  rw [Entry.plain, h.decode_eq]
  rfl

variable {key : EncodedKey} {bound : Key}

theorem compare_eq (h : e.id.key.Decodes parts) (hbound : bound.encode = .ok key) :
    compare e.id.key key = e.plain.key.collate bound := by
  rw [h.plain_key]
  exact Key.compare_of_encode h.encode_eq hbound

end EncodedKey.Decodes

theorem isLT_then_compare_zero (o : Ordering) (n : Nat) :
    (o.then (compare n 0)).isLT = o.isLT := by
  cases o with
  | lt => rfl
  | gt => rfl
  | eq =>
      cases n with
      | zero => rfl
      | succ n => rfl

section Ranges

variable {options : QueryOptions} {e : Entry} {parts bound : Key} {key : EncodedKey}

theorem holds_exact (h : e.id.key.Decodes parts) (hbound : bound.encode = .ok key) :
    (KeyRange.exact key).holds e.id = options.selects (.exactly bound) e.plain := by
  simp only [KeyRange.holds, KeyRange.exact, KeyRange.between, Cut.isAfter, if_true,
    h.compare_eq hbound, QueryOptions.selects]
  cases e.plain.key.collate bound <;> rfl

theorem holds_startingWith (h : e.id.key.Decodes parts) (hbound : bound.encode = .ok key) :
    (KeyRange.startingWith key).holds e.id = options.selects (.startingWith bound) e.plain := by
  have hprefix := KeyPart.prefix_iff_collateItems_take (Key.encodeItems_of_encode h.encode_eq)
    (Key.encodeItems_of_encode hbound)
  rw [Bool.eq_iff_iff, QueryOptions.selects, beq_iff_eq, h.plain_key, Key.collate, ← hprefix]
  have hstart : (!(Cut.beforeKey key).isAfter e.id) = (compare e.id.key key).isGE := by
    rw [Cut.isAfter]
    cases compare e.id.key key <;> rfl
  rw [KeyRange.startingWith, KeyRange.holds, Bool.and_eq_true, hstart]
  constructor
  · rintro ⟨hge, hlt⟩
    exact (KeyRange.isAfter_endOfPrefix hge).mp hlt
  · intro hprefix
    have hge : (compare e.id.key key).isGE = true := Bytes.isGE_of_prefix hprefix
    exact ⟨hge, (KeyRange.isAfter_endOfPrefix hge).mpr hprefix⟩

theorem isAfter_beforeEntry (h : e.id.key.Decodes parts) (hbound : bound.encode = .ok key)
    (docId : String) : (Cut.beforeEntry ⟨key, docId, 0⟩).isAfter e.id
      = (Mark.compare e.plain ⟨bound, some docId⟩).isLT := by
  have hcompare : compare e.id ⟨key, docId, 0⟩
      = ((compare e.id.key key).then (compare e.id.docId docId)).then (compare e.id.ordinal 0) := by
    rw [Ordering.then_assoc]
    rfl
  rw [Cut.isAfter, hcompare, isLT_then_compare_zero, h.compare_eq hbound]
  rfl

theorem isAfter_afterDoc (h : e.id.key.Decodes parts) (hbound : bound.encode = .ok key)
    (docId : String) : (Cut.afterDoc key docId).isAfter e.id
      = (Mark.compare e.plain ⟨bound, some docId⟩).isLE := by
  rw [Cut.isAfter, h.compare_eq hbound]
  rfl

theorem isAfter_startCut (h : e.id.key.Decodes parts) (hbound : bound.encode = .ok key) :
    (options.startCut key).isAfter e.id
      = if options.descending then (Mark.compare e.plain ⟨bound, options.startDoc⟩).isLE
        else (Mark.compare e.plain ⟨bound, options.startDoc⟩).isLT := by
  rw [QueryOptions.startCut]
  cases options.startDoc with
  | none =>
      cases options.descending <;>
        simp only [Cut.isAfter, h.compare_eq hbound, Mark.compare, if_true, Bool.false_eq_true,
          if_false]
  | some docId =>
      cases options.descending with
      | false => exact isAfter_beforeEntry h hbound docId
      | true => exact isAfter_afterDoc h hbound docId

theorem isAfter_endCut (h : e.id.key.Decodes parts) (hbound : bound.encode = .ok key) :
    (options.endCut key).isAfter e.id
      = if options.descending == options.inclusiveEnd then
          (Mark.compare e.plain ⟨bound, options.endDoc⟩).isLT
        else (Mark.compare e.plain ⟨bound, options.endDoc⟩).isLE := by
  rw [QueryOptions.endCut]
  cases options.endDoc with
  | none =>
      cases options.descending == options.inclusiveEnd <;>
        simp only [Cut.isAfter, h.compare_eq hbound, Mark.compare, if_true, Bool.false_eq_true,
          if_false]
  | some docId =>
      cases options.descending == options.inclusiveEnd with
      | true => exact isAfter_beforeEntry h hbound docId
      | false => exact isAfter_afterDoc h hbound docId

end Ranges

/-- Every key that a selector names can be encoded. -/
def Selector.Encodable : Selector → Prop
  | .exactly key => ∃ encoded, key.encode = .ok encoded
  | .startingWith start => ∃ encoded, start.encode = .ok encoded
  | .between start finish =>
      (∀ mark ∈ start, ∃ encoded, mark.key.encode = .ok encoded) ∧
        ∀ mark ∈ finish, ∃ encoded, mark.key.encode = .ok encoded

namespace QueryOptions

/-- The range holds exactly the entries that the selector selects. -/
def Realizes (options : QueryOptions) (range : KeyRange) (selector : Selector) : Prop :=
  ∀ (e : Entry) (parts : Key), e.id.key.Decodes parts →
    range.holds e.id = options.selects selector e.plain

/-- The selector selects nothing. -/
def Vain (options : QueryOptions) (selector : Selector) : Prop :=
  ∀ (e : Entry) (parts : Key), e.id.key.Decodes parts → options.selects selector e.plain = false

/-- An encoded key, if there is one, is that of the other key. -/
abbrev Encodes : Option EncodedKey → Option Key → Prop :=
  Option.Rel fun key parts => parts.encode = .ok key

variable {options : QueryOptions} {start finish : Option EncodedKey} {first last : Option Key}

variable (options) in
/-- The range between two bounds holds what lies between the marks. -/
theorem realizes_between (hfirst : Encodes start first) (hlast : Encodes finish last) :
    options.Realizes
      (if options.descending then
        ⟨(finish.map options.endCut).getD .start, (start.map options.startCut).getD .finish⟩
      else ⟨(start.map options.startCut).getD .start, (finish.map options.endCut).getD .finish⟩)
      (.between (first.map (⟨·, options.startDoc⟩)) (last.map (⟨·, options.endDoc⟩))) := by
  intro e parts h
  -- Each end is told by its own cut; which cut is the lower one depends on the direction.
  have hstart : (first.map (⟨·, options.startDoc⟩)).all (options.startsAt · e.plain)
      = if options.descending then ((start.map options.startCut).getD .finish).isAfter e.id
        else !((start.map options.startCut).getD .start).isAfter e.id := by
    cases hfirst with
    | none => cases options.descending <;> rfl
    | some hbound =>
        rw [Option.map_some, Option.map_some, Option.getD_some, Option.getD_some,
          isAfter_startCut h hbound, Option.all_some, startsAt, turned]
        cases options.descending <;> cases Mark.compare e.plain ⟨_, options.startDoc⟩ <;> rfl
  have hend : (last.map (⟨·, options.endDoc⟩)).all (options.endsAt · e.plain)
      = if options.descending then !((finish.map options.endCut).getD .start).isAfter e.id
        else ((finish.map options.endCut).getD .finish).isAfter e.id := by
    cases hlast with
    | none => cases options.descending <;> rfl
    | some hbound =>
        rw [Option.map_some, Option.map_some, Option.getD_some, Option.getD_some,
          isAfter_endCut h hbound, Option.all_some, endsAt, turned]
        cases options.descending <;> cases options.inclusiveEnd <;>
          cases Mark.compare e.plain ⟨_, options.endDoc⟩ <;> rfl
  rw [selects, hstart, hend]
  cases options.descending with
  | false => rfl
  | true => exact Bool.and_comm _ _

theorem isGE_collate_of_isGE {e : PlainEntry} {mark : Mark} (h : (mark.compare e).isGE = true) :
    (e.key.collate mark.key).isGE = true := by
  rw [Mark.compare] at h
  cases hkey : e.key.collate mark.key with
  | lt => rw [hkey] at h; cases hdoc : mark.docId <;> rw [hdoc] at h <;> cases h
  | eq => rfl
  | gt => rfl

theorem isLE_collate_of_isLE {e : PlainEntry} {mark : Mark} (h : (mark.compare e).isLE = true) :
    (e.key.collate mark.key).isLE = true := by
  rw [Mark.compare] at h
  cases hkey : e.key.collate mark.key with
  | lt => rfl
  | eq => rfl
  | gt => rw [hkey] at h; cases hdoc : mark.docId <;> rw [hdoc] at h <;> cases h

/-- Nothing lies between a start and an end before it. -/
theorem vain_of_isBehind {startKey endKey : EncodedKey} {firstKey lastKey : Key}
    (hfirst : firstKey.encode = .ok startKey) (hlast : lastKey.encode = .ok endKey)
    (hbehind : options.isBehind startKey endKey = true) (startDoc endDoc : Option String) :
    options.Vain (.between (some ⟨firstKey, startDoc⟩) (some ⟨lastKey, endDoc⟩)) := by
  intro e parts h
  have hstart := h.compare_eq hfirst
  have hend := h.compare_eq hlast
  rw [← Bool.not_eq_true, selects, Option.all_some, Option.all_some, Bool.and_eq_true]
  rintro ⟨hstarts, hends⟩
  have hle : (options.turned (Mark.compare e.plain ⟨lastKey, endDoc⟩)).isLE = true := by
    rw [endsAt] at hends
    split at hends
    next => exact hends
    next =>
      rw [Ordering.isLT_iff_eq_lt] at hends
      rw [hends]
      rfl
  rw [startsAt, turned] at hstarts
  rw [turned] at hle
  rw [isBehind] at hbehind
  -- The key of the entry would lie on the wrong side of one of the two.
  cases hdescending : options.descending with
  | false =>
      simp only [hdescending, Bool.false_eq_true, if_false] at hstarts hle hbehind
      have hbelow := isLE_collate_of_isLE hle
      have habove := isGE_collate_of_isGE hstarts
      rw [← hend] at hbelow
      rw [Ordering.isGT_iff_eq_gt] at hbehind
      rw [← hstart, Std.TransCmp.lt_of_isLE_of_lt hbelow (Std.OrientedCmp.lt_of_gt hbehind)]
        at habove
      cases habove
  | true =>
      simp only [hdescending, if_true, Ordering.isGE_swap, Ordering.isLE_swap]
        at hstarts hle hbehind
      have hbelow := isLE_collate_of_isLE hstarts
      have habove := isGE_collate_of_isGE hle
      rw [← hstart] at hbelow
      rw [Ordering.isLT_iff_eq_lt] at hbehind
      rw [← hend, Std.TransCmp.lt_of_isLE_of_lt hbelow hbehind] at habove
      cases habove

end QueryOptions

/-! ## Plans -/

theorem exists_of_encodeQueryKey {value : Json} {key : EncodedKey}
    (h : encodeQueryKey value = .ok key) :
    ∃ parts, Key.ofJson value = .ok parts ∧ parts.encode = .ok key := by
  rw [encodeQueryKey] at h
  cases hparts : Key.ofJson value with
  | error e => rw [hparts] at h; cases h
  | ok parts =>
      rw [hparts] at h
      refine ⟨parts, rfl, ?_⟩
      cases hkey : parts.encode with
      | error e => simp only [bind, Except.bind, hkey] at h; cases h
      | ok other => simp only [bind, Except.bind, hkey] at h; cases h; rfl

theorem exists_of_mapM_encodeQueryKey {value : Option Json} {key : Option EncodedKey}
    (h : value.mapM encodeQueryKey = .ok key) :
    ∃ parts, value.mapM Key.ofJson = .ok parts ∧ QueryOptions.Encodes key parts := by
  cases value with
  | none => cases h; exact ⟨none, rfl, .none⟩
  | some value =>
      cases hkey : encodeQueryKey value with
      | error e =>
          simp only [Option.mapM_some, hkey] at h
          cases h
      | ok encoded =>
          obtain ⟨parts, hparts, hencode⟩ := exists_of_encodeQueryKey hkey
          simp only [Option.mapM_some, hkey] at h
          cases h
          refine ⟨some parts, ?_, .some hencode⟩
          simp only [Option.mapM_some, hparts]
          rfl

theorem exists_of_mapM_exact {options : QueryOptions} {keys : List Json} {ranges : List KeyRange}
    (h : (keys.mapM fun key => do return KeyRange.exact (← encodeQueryKey key)) = .ok ranges) :
    ∃ selectors : List Selector,
      (keys.mapM fun key => do return Selector.exactly (← Key.ofJson key)) = .ok selectors ∧
        List.Forall₂ options.Realizes ranges selectors ∧
        ∀ selector ∈ selectors, selector.Encodable := by
  induction keys generalizing ranges with
  | nil => cases h; exact ⟨[], rfl, .nil, by simp⟩
  | cons value rest ih =>
      rw [List.mapM_cons] at h
      cases hkey : encodeQueryKey value with
      | error e => rw [hkey] at h; cases h
      | ok key =>
          cases hrest : rest.mapM fun key => do return KeyRange.exact (← encodeQueryKey key) with
          | error e => simp only [hkey, hrest] at h; cases h
          | ok others =>
              simp only [hkey, hrest] at h
              cases h
              obtain ⟨parts, hparts, hencode⟩ := exists_of_encodeQueryKey hkey
              obtain ⟨selectors, hselectors, hrealizes, hencodable⟩ := ih hrest
              refine ⟨.exactly parts :: selectors, ?_,
                .cons (fun e shown hshown => holds_exact hshown hencode) hrealizes,
                List.forall_mem_cons.mpr ⟨⟨key, hencode⟩, hencodable⟩⟩
              rw [List.mapM_cons, hparts, hselectors]
              rfl

namespace QueryOptions

variable {options : QueryOptions}

/-- Ranges hold what the selectors select, one by one; or there is no range, since the only selector
selects nothing. -/
structure Agree (options : QueryOptions) (ranges : List KeyRange) (selectors : List Selector) :
    Prop where
  realizes : List.Forall₂ options.Realizes ranges selectors ∨
    ranges = [] ∧ ∃ selector, selectors = [selector] ∧ options.Vain selector
  encodable : ∀ selector ∈ selectors, selector.Encodable

theorem Realizes.agree {range : KeyRange} {selector : Selector}
    (h : options.Realizes range selector) (hencodable : selector.Encodable) :
    options.Agree [range] [selector] where
  realizes := .inl (.cons h .nil)
  encodable := List.forall_mem_singleton.mpr hencodable

theorem Encodes.encodable {key : Option EncodedKey} {parts : Option Key} (h : Encodes key parts)
    (docId : Option String) :
    ∀ mark ∈ parts.map (Mark.mk · docId), ∃ encoded, mark.key.encode = .ok encoded := by
  intro mark hmark
  cases h with
  | none => cases hmark
  | some hencode => cases hmark; exact ⟨_, hencode⟩

theorem exists_of_boundedRange? {range : Option KeyRange} (h : options.boundedRange? = .ok range) :
    ∃ first last, options.startKey.mapM Key.ofJson = .ok first ∧
      options.endKey.mapM Key.ofJson = .ok last ∧
      options.Agree range.toList
        [.between (first.map (⟨·, options.startDoc⟩)) (last.map (⟨·, options.endDoc⟩))] := by
  rw [boundedRange?] at h
  cases hstart : options.startKey.mapM encodeQueryKey with
  | error e => rw [hstart] at h; cases h
  | ok start =>
      cases hfinish : options.endKey.mapM encodeQueryKey with
      | error e => rw [hstart, hfinish] at h; cases h
      | ok finish =>
          obtain ⟨first, hfirst, hfirstKey⟩ := exists_of_mapM_encodeQueryKey hstart
          obtain ⟨last, hlast, hlastKey⟩ := exists_of_mapM_encodeQueryKey hfinish
          refine ⟨first, last, hfirst, hlast, ?_⟩
          have hencodable : Selector.Encodable
              (.between (first.map (⟨·, options.startDoc⟩)) (last.map (⟨·, options.endDoc⟩))) :=
            ⟨Encodes.encodable hfirstKey _, Encodes.encodable hlastKey _⟩
          rw [hstart, hfinish] at h
          simp only [bind, Except.bind, pure, Except.pure] at h
          split at h
          next hbehind =>
            cases h
            cases hfirstKey with
            | none => cases hbehind
            | some hfirstKey =>
                cases hlastKey with
                | none => cases hbehind
                | some hlastKey =>
                    have hvain := vain_of_isBehind hfirstKey hlastKey (by simpa using hbehind)
                      options.startDoc options.endDoc
                    exact ⟨.inr ⟨rfl, _, rfl, hvain⟩, List.forall_mem_singleton.mpr hencodable⟩
          next =>
            have hrealizes := realizes_between options hfirstKey hlastKey
            split at h
            next hdescending =>
              cases h
              rw [if_pos hdescending] at hrealizes
              exact hrealizes.agree hencodable
            next hdescending =>
              cases h
              rw [if_neg hdescending] at hrealizes
              exact hrealizes.agree hencodable

/-- Whenever the ranges of a query can be found, so can its selectors, and they agree. -/
theorem exists_of_selectedRanges {ranges : List KeyRange}
    (h : options.selectedRanges = .ok ranges) :
    ∃ selectors, options.selectors = .ok selectors ∧ options.Agree ranges selectors := by
  rw [selectedRanges] at h
  split at h
  next keys _ _ hkeys =>
    obtain ⟨found, hfound, hrealizes, hencodable⟩ := exists_of_mapM_exact h
    exact ⟨found, by simp only [selectors, hkeys]; exact hfound, .inl hrealizes, hencodable⟩
  next _ value hkeys hvalue =>
    cases hkey : encodeQueryKey value with
    | error e => rw [hkey] at h; cases h
    | ok key =>
        rw [hkey] at h
        cases h
        obtain ⟨parts, hparts, hencode⟩ := exists_of_encodeQueryKey hkey
        refine ⟨[.exactly parts], by simp only [selectors, hkeys, hvalue, hparts]; rfl,
          Realizes.agree ?_ ⟨key, hencode⟩⟩
        exact fun e shown hshown => holds_exact hshown hencode
  next value hkeys hnone hvalue =>
    cases hkey : encodeQueryKey value with
    | error e => rw [hkey] at h; cases h
    | ok key =>
        rw [hkey] at h
        cases h
        obtain ⟨parts, hparts, hencode⟩ := exists_of_encodeQueryKey hkey
        refine ⟨[.startingWith parts], by simp only [selectors, hkeys, hnone, hvalue, hparts]; rfl,
          Realizes.agree ?_ ⟨key, hencode⟩⟩
        exact fun e shown hshown => holds_startingWith hshown hencode
  next hkeys hnone hvalue =>
    cases hrange : options.boundedRange? with
    | error e => rw [hrange] at h; cases h
    | ok range =>
        rw [hrange] at h
        cases h
        obtain ⟨first, last, hfirst, hlast, hagree⟩ := exists_of_boundedRange? hrange
        exact ⟨_, by simp only [selectors, hkeys, hnone, hvalue, hfirst, hlast]; rfl, hagree⟩

/-- A start after the end leaves nothing. -/
theorem vain_of_turned_eq_gt {first last : Mark}
    (hencodable : (Selector.between (some first) (some last)).Encodable)
    (hturned : options.turned (first.key.collate last.key) = .gt) :
    options.Vain (.between (some first) (some last)) := by
  obtain ⟨startKey, hstart⟩ := hencodable.1 first rfl
  obtain ⟨endKey, hend⟩ := hencodable.2 last rfl
  apply vain_of_isBehind hstart hend
  rw [isBehind, Key.compare_of_encode hstart hend]
  rw [turned] at hturned
  split
  next hdescending =>
    rw [if_pos hdescending] at hturned
    rw [Ordering.swap_eq_gt.mp hturned]
    rfl
  next hdescending =>
    rw [if_neg hdescending] at hturned
    rw [hturned]
    rfl

/-- Unless several keys are asked for, all that is to be checked is that there are not several
selectors. -/
theorem checkSelectors_eq (hkeys : options.keys = none) (shape : RowShape) :
    options.checkSelectors shape
      = if 1 < options.selectorCount then .error .severalSelectors else .ok () := by
  rw [checkSelectors, hkeys]
  split
  next => rfl
  next => rfl

/-- What is left of ranges behind the continuation, if there is one. -/
def leftOf (options : QueryOptions) (ranges : List KeyRange) : List KeyRange :=
  match options.continuation with
  | some cut => ranges.map (·.resume cut options.descending)
  | none => ranges

theorem plan_eq_ok {reducer : Option Reducer} {shape : RowShape} {ranges : List KeyRange}
    (hshape : options.shape reducer = .ok shape) (hcheck : options.checkSelectors shape = .ok ())
    (hranges : options.selectedRanges = .ok ranges) :
    options.plan reducer = .ok ⟨options.leftOf ranges, shape⟩ := by
  simp only [QueryOptions.plan, hshape, hcheck, hranges, Except.mapError, bind, Except.bind]
  rfl

/-- What a query went through if it is accepted. -/
theorem exists_of_plan_eq_ok {reducer : Option Reducer} {plan : Plan}
    (h : options.plan reducer = .ok plan) :
    options.shape reducer = .ok plan.shape ∧ options.checkSelectors plan.shape = .ok () ∧
      ∃ ranges, options.selectedRanges = .ok ranges ∧ plan.ranges = options.leftOf ranges := by
  rw [QueryOptions.plan] at h
  cases hshape : options.shape reducer with
  | error e => rw [hshape] at h; cases h
  | ok shape =>
      cases hcheck : options.checkSelectors shape with
      | error e => simp only [hshape, hcheck, Except.mapError, bind, Except.bind] at h; cases h
      | ok _ =>
          cases hranges : options.selectedRanges with
          | error e =>
              simp only [hshape, hcheck, hranges, Except.mapError, bind, Except.bind] at h
              cases h
          | ok ranges =>
              simp only [hshape, hcheck, hranges, Except.mapError, bind, Except.bind] at h
              cases h
              exact ⟨rfl, hcheck, ranges, rfl, rfl⟩

theorem parts_of_plan {reducer : Option Reducer} {plan : Plan}
    (h : options.plan reducer = .ok plan) (hcontinuation : options.continuation = none) :
    options.shape reducer = .ok plan.shape ∧ options.checkSelectors plan.shape = .ok () ∧
      options.selectedRanges = .ok plan.ranges := by
  obtain ⟨hshape, hcheck, ranges, hranges, hleft⟩ := exists_of_plan_eq_ok h
  rw [leftOf, hcontinuation] at hleft
  rw [hleft]
  exact ⟨hshape, hcheck, hranges⟩

theorem exists_of_selectors {selectors : List Selector} (hkeys : options.keys = none)
    (h : options.selectors = .ok selectors) : ∃ selector, selectors = [selector] := by
  rw [QueryOptions.selectors, hkeys] at h
  split at h
  next hnone => cases hnone
  next value _ _ =>
    cases hparts : Key.ofJson value with
    | error e => rw [hparts] at h; cases h
    | ok parts => rw [hparts] at h; cases h; exact ⟨_, rfl⟩
  next value _ _ _ =>
    cases hparts : Key.ofJson value with
    | error e => rw [hparts] at h; cases h
    | ok parts => rw [hparts] at h; cases h; exact ⟨_, rfl⟩
  next =>
    cases hstart : options.startKey.mapM Key.ofJson with
    | error e => rw [hstart] at h; cases h
    | ok start =>
        cases hfinish : options.endKey.mapM Key.ofJson with
        | error e => rw [hstart, hfinish] at h; cases h
        | ok finish => rw [hstart, hfinish] at h; cases h; exact ⟨_, rfl⟩

/-- Unless several keys are asked for, a plan reads one range at most. -/
theorem ranges_of_plan {reducer : Option Reducer} {plan : Plan} (hkeys : options.keys = none)
    (h : options.plan reducer = .ok plan) :
    plan.ranges = [] ∨ ∃ range, plan.ranges = [range] := by
  obtain ⟨-, -, ranges, hranges, hleft⟩ := exists_of_plan_eq_ok h
  obtain ⟨selectors, hselectors, hagree⟩ := exists_of_selectedRanges hranges
  obtain ⟨selector, rfl⟩ := exists_of_selectors hkeys hselectors
  rw [hleft, leftOf]
  rcases hagree.realizes with hrealizes | ⟨rfl, -⟩
  · obtain ⟨range, rfl⟩ := List.length_eq_one_iff.mp hrealizes.length_eq
    cases options.continuation with
    | none => exact .inr ⟨_, rfl⟩
    | some cut => exact .inr ⟨_, rfl⟩
  · cases options.continuation <;> exact .inl rfl

/-- Keys are looked up one by one. -/
theorem length_ranges_of_plan {reducer : Option Reducer} {plan : Plan} {keys : List Json}
    (hkeys : options.keys = some keys) (h : options.plan reducer = .ok plan) :
    plan.ranges.length = keys.length := by
  obtain ⟨-, -, ranges, hranges, hleft⟩ := exists_of_plan_eq_ok h
  have hlength : plan.ranges.length = ranges.length := by
    rw [hleft, leftOf]
    split
    next => exact List.length_map _
    next => rfl
  rw [selectedRanges, hkeys] at hranges
  rw [hlength, length_of_mapM_eq_ok hranges]

/-- The plan of a query reads ranges that agree with its selectors. -/
theorem exists_of_plan {reducer : Option Reducer} {plan : Plan}
    (h : options.plan reducer = .ok plan) (hcontinuation : options.continuation = none) :
    options.shape reducer = .ok plan.shape ∧
      ∃ selectors, options.selectors = .ok selectors ∧ options.Agree plan.ranges selectors := by
  obtain ⟨hshape, -, hranges⟩ := parts_of_plan h hcontinuation
  exact ⟨hshape, exists_of_selectedRanges hranges⟩

end QueryOptions

end ViewIndex
