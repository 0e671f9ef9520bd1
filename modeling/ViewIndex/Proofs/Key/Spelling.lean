import Mathlib.Tactic.SplitIfs
import ViewIndex.Proofs.Key.Collation
import ViewIndex.Proofs.Storage.Codec

/-!
# Which bytes are components

Bytes that nothing has encoded may still decode: they spell components one after the other. This is
stated as a relation, and reading is shown to find exactly what is spelled, whatever bytes follow.
So the first components can be read off a key that does not decode as a whole, and a key that begins
with the bytes of some components has these components first.
-/

namespace ViewIndex

namespace Bytes

theorem length_bigEndian (width n : Nat) : (bigEndian width n).length = width := by
  induction width with
  | zero => rfl
  | succ width ih => rw [bigEndian, List.length_cons, ih]

theorem eq_append_of_split? {n : Nat} {bytes first rest : Bytes}
    (h : split? n bytes = some (first, rest)) : first.length = n ∧ bytes = first ++ rest := by
  unfold split? at h
  split at h
  next hle =>
    cases h
    exact ⟨List.length_take_of_le hle, (List.take_append_drop n bytes).symm⟩
  next => cases h

theorem eq_ofText_of_toText? {bytes : Bytes} {s : String} (h : toText? bytes = some s) :
    bytes = ofText s := by
  unfold toText? String.fromUTF8? at h
  split at h
  next hvalid =>
    obtain rfl := Option.some.inj h
    rfl
  next => cases h

end Bytes

namespace KeyPart

theorem readTerminated_terminate (bytes rest : Bytes) :
    readTerminated (terminate bytes ++ rest) = some (bytes, rest) := by
  induction bytes with
  | nil => rfl
  | cons b bytes ih =>
      rw [Bytes.terminate_cons]
      split
      next hzero => simp [readTerminated, hzero, ih]
      next hzero => rw [List.cons_append, readTerminated.eq_def]; simp [hzero, ih]

/-- There is only one way to escape bytes. -/
theorem eq_terminate_of_readTerminated {bytes text rest : Bytes}
    (h : readTerminated bytes = some (text, rest)) : bytes = terminate text ++ rest := by
  fun_induction readTerminated bytes generalizing text with
  | case1 => cases h
  | case2 b bytes hb ih =>
      obtain ⟨⟨more, tail⟩, hread, heq⟩ := Option.map_eq_some_iff.mp h
      cases heq
      rw [Bytes.terminate_cons, if_neg hb, ih hread]
      rfl
  | case3 b hb => cases h
  | case4 b hb bytes ih =>
      obtain ⟨⟨more, tail⟩, hread, heq⟩ := Option.map_eq_some_iff.mp h
      cases heq
      rw [Bytes.terminate_cons, if_pos rfl, ih hread, Classical.not_not.mp hb]
      rfl
  | case5 b hb bytes =>
      cases h
      rw [Classical.not_not.mp hb]
      rfl
  | case6 => cases h

mutual

/-- The bytes are those of one component. -/
inductive Spells : Bytes → KeyPart → Prop
  | null : Spells [nullTag] .null
  | bool (b : Bool) : Spells [if b then trueTag else falseTag] (.bool b)
  | number {word : Bytes} (h : word.length = 8) :
      Spells (numberTag :: word)
        (.number (ofOrderedWord (UInt64.ofNat (Bytes.ofBigEndian word))))
  | text (s : String) : Spells (textTag :: terminate (Bytes.ofText s)) (.text s)
  | array {bytes : Bytes} {items : List KeyPart} (h : SpellsItems bytes items) :
      Spells (arrayTag :: bytes ++ [arrayEnd]) (.array items)

/-- The bytes are those of components one after the other. -/
inductive SpellsItems : Bytes → List KeyPart → Prop
  | nil : SpellsItems [] []
  | cons {first others : Bytes} {part : KeyPart} {rest : List KeyPart} (hfirst : Spells first part)
      (hothers : SpellsItems others rest) : SpellsItems (first ++ others) (part :: rest)

end

theorem Spells.exists_cons {bytes : Bytes} {part : KeyPart} (h : Spells bytes part) :
    ∃ rest, bytes = part.tag :: rest := by
  cases h with
  | null => exact ⟨[], rfl⟩
  | bool b => cases b <;> exact ⟨[], rfl⟩
  | number _ => exact ⟨_, rfl⟩
  | text s => exact ⟨_, rfl⟩
  | array _ => exact ⟨_, rfl⟩

theorem tag_ne_arrayEnd : ∀ part : KeyPart, part.tag ≠ arrayEnd
  | .null => show nullTag ≠ arrayEnd by decide
  | .bool false => show falseTag ≠ arrayEnd by decide
  | .bool true => show trueTag ≠ arrayEnd by decide
  | .number _ => show numberTag ≠ arrayEnd by decide
  | .text _ => show textTag ≠ arrayEnd by decide
  | .array _ => show arrayTag ≠ arrayEnd by decide

theorem Spells.length_pos {bytes : Bytes} {part : KeyPart} (h : Spells bytes part) :
    0 < bytes.length := by
  obtain ⟨rest, rfl⟩ := h.exists_cons
  exact Nat.succ_pos _

/-! ## Reading what is spelled -/

mutual

/-- Every byte of a component stands for at most two calls of the decoder. -/
theorem decode_of_spells : ∀ (part : KeyPart) {bytes : Bytes}, Spells bytes part →
    ∀ {fuel : Nat}, 2 * bytes.length ≤ fuel → ∀ rest : Bytes,
      decode fuel (bytes ++ rest) = some (part, rest)
  | .null, _, .null, fuel + 1, _, rest => rfl
  | .bool false, _, .bool false, fuel + 1, _, rest => rfl
  | .bool true, _, .bool true, fuel + 1, _, rest => rfl
  | .number _, _, @Spells.number word hword, fuel + 1, _, rest => by
      have hsplit := Bytes.split?_append word rest
      rw [hword] at hsplit
      rw [List.cons_append, decode]
      simp only [show numberTag ≠ nullTag by decide, show numberTag ≠ falseTag by decide,
        show numberTag ≠ trueTag by decide, if_false, if_true, hsplit, Option.map_some]
  | .text s, _, .text _, fuel + 1, _, rest => by
      rw [List.cons_append, decode]
      simp only [show textTag ≠ nullTag by decide, show textTag ≠ falseTag by decide,
        show textTag ≠ trueTag by decide, show textTag ≠ numberTag by decide, if_false, if_true,
        readTerminated_terminate, Option.bind_eq_bind, Option.bind_some, Bytes.toText?_ofText]
      rfl
  | .array items, _, @Spells.array inner _ hitems, fuel + 1, hfuel, rest => by
      have hdecode : decodeItems fuel (inner ++ arrayEnd :: rest) = some (items, rest) := by
        refine decodeItems_of_spells items hitems ?_ rest
        simp only [List.length_cons, List.length_append, List.length_nil] at hfuel
        omega
      rw [List.cons_append, List.cons_append, List.append_assoc, List.singleton_append, decode]
      simp only [show arrayTag ≠ nullTag by decide, show arrayTag ≠ falseTag by decide,
        show arrayTag ≠ trueTag by decide, show arrayTag ≠ numberTag by decide,
        show arrayTag ≠ textTag by decide, if_false, if_true, hdecode, Option.map_some]
  | part, _, h, 0, hfuel, _ => by
      have hpos := h.length_pos
      omega

theorem decodeItems_of_spells : ∀ (items : List KeyPart) {bytes : Bytes},
    SpellsItems bytes items → ∀ {fuel : Nat}, 2 * bytes.length + 1 ≤ fuel →
      ∀ rest : Bytes, decodeItems fuel (bytes ++ arrayEnd :: rest) = some (items, rest)
  | [], _, .nil, fuel + 1, _, rest => by simp [decodeItems]
  | part :: parts, _, @SpellsItems.cons first others _ _ hfirst hothers, fuel + 1, hfuel, rest => by
      have hpos := hfirst.length_pos
      rw [List.length_append] at hfuel
      have hpart : decode fuel (first ++ (others ++ arrayEnd :: rest))
          = some (part, others ++ arrayEnd :: rest) :=
        decode_of_spells part hfirst (by omega) _
      have hparts : decodeItems fuel (others ++ arrayEnd :: rest) = some (parts, rest) :=
        decodeItems_of_spells parts hothers (by omega) rest
      obtain ⟨more, rfl⟩ := hfirst.exists_cons
      rw [List.append_assoc, List.cons_append] at *
      rw [decodeItems, if_neg (tag_ne_arrayEnd part), hpart]
      simp only [Option.bind_eq_bind, Option.bind_some, hparts]
      rfl

end

/-! ## Reading nothing else -/

mutual

theorem exists_of_decode : ∀ {fuel : Nat} {bytes rest : Bytes} {part : KeyPart},
    decode fuel bytes = some (part, rest) → ∃ first, Spells first part ∧ bytes = first ++ rest
  | fuel + 1, tag :: bytes, rest, part, h => by
      rw [decode] at h
      split_ifs at h with hnull hfalse htrue hnumber htext harray
      · cases h
        exact ⟨_, .null, by rw [hnull]; rfl⟩
      · cases h
        exact ⟨_, .bool false, by rw [hfalse]; rfl⟩
      · cases h
        exact ⟨_, .bool true, by rw [htrue]; rfl⟩
      · obtain ⟨⟨word, tail⟩, hsplit, heq⟩ := Option.map_eq_some_iff.mp h
        cases heq
        obtain ⟨hword, rfl⟩ := Bytes.eq_append_of_split? hsplit
        exact ⟨_, .number hword, by rw [hnumber]; rfl⟩
      · obtain ⟨⟨text, tail⟩, hread, hrest⟩ := Option.bind_eq_some_iff.mp h
        obtain ⟨s, hs, heq⟩ := Option.bind_eq_some_iff.mp hrest
        cases heq
        obtain rfl := Bytes.eq_ofText_of_toText? hs
        exact ⟨_, .text s, by rw [htext, eq_terminate_of_readTerminated hread]; rfl⟩
      · obtain ⟨⟨items, tail⟩, hitems, heq⟩ := Option.map_eq_some_iff.mp h
        cases heq
        obtain ⟨inner, hinner, rfl⟩ := exists_of_decodeItems hitems
        exact ⟨_, .array hinner, by rw [harray]; simp⟩

theorem exists_of_decodeItems : ∀ {fuel : Nat} {bytes rest : Bytes} {items : List KeyPart},
    decodeItems fuel bytes = some (items, rest) →
      ∃ inner, SpellsItems inner items ∧ bytes = inner ++ arrayEnd :: rest
  | fuel + 1, b :: bytes, rest, items, h => by
      rw [decodeItems] at h
      split at h
      next hend =>
        cases h
        exact ⟨[], .nil, by rw [hend]; rfl⟩
      next =>
        obtain ⟨⟨part, tail⟩, hpart, hrest⟩ := Option.bind_eq_some_iff.mp h
        obtain ⟨⟨parts, tail'⟩, hparts, heq⟩ := Option.bind_eq_some_iff.mp hrest
        cases heq
        obtain ⟨first, hfirst, hbytes⟩ := exists_of_decode hpart
        obtain ⟨others, hothers, rfl⟩ := exists_of_decodeItems hparts
        exact ⟨first ++ others, .cons hfirst hothers, by rw [hbytes, List.append_assoc]⟩

end

/-! ## Components one by one -/

theorem decodeFirst_eq_some_iff {bytes rest : Bytes} {part : KeyPart} :
    decodeFirst bytes = some (part, rest) ↔ ∃ first, Spells first part ∧ bytes = first ++ rest := by
  refine ⟨exists_of_decode, ?_⟩
  rintro ⟨first, hfirst, rfl⟩
  refine decode_of_spells part hfirst ?_ rest
  rw [List.length_append]
  omega

theorem splitFirst_eq_some_iff {bytes first rest : Bytes} :
    splitFirst bytes = some (first, rest) ↔
      (∃ part, Spells first part) ∧ bytes = first ++ rest := by
  rw [splitFirst, Option.map_eq_some_iff]
  constructor
  · rintro ⟨⟨part, tail⟩, hdecode, heq⟩
    obtain ⟨taken, htaken, rfl⟩ := decodeFirst_eq_some_iff.mp hdecode
    dsimp only at heq
    rw [List.length_append, Nat.add_sub_cancel_right, List.take_left] at heq
    cases heq
    exact ⟨⟨part, htaken⟩, rfl⟩
  · rintro ⟨⟨part, hpart⟩, rfl⟩
    refine ⟨(part, rest), decodeFirst_eq_some_iff.mpr ⟨first, hpart, rfl⟩, ?_⟩
    dsimp only
    rw [List.length_append, Nat.add_sub_cancel_right, List.take_left]

theorem SpellsItems.length_le {bytes : Bytes} {parts : List KeyPart} (h : SpellsItems bytes parts) :
    parts.length ≤ bytes.length := by
  induction parts generalizing bytes with
  | nil => exact Nat.zero_le _
  | cons part rest ih =>
      cases h with
      | cons hfirst hothers =>
          have hpos := hfirst.length_pos
          have hrest := ih hothers
          rw [List.length_cons, List.length_append]
          omega

theorem SpellsItems.eq_nil_iff {bytes : Bytes} {parts : List KeyPart}
    (h : SpellsItems bytes parts) : bytes = [] ↔ parts = [] := by
  cases h with
  | nil => simp
  | cons hfirst hothers =>
      obtain ⟨more, rfl⟩ := hfirst.exists_cons
      simp

end KeyPart

/-! ## Keys of any bytes -/

namespace EncodedKey

open KeyPart (Spells SpellsItems decodeFirst_eq_some_iff splitFirst_eq_some_iff)

variable {bytes first : Bytes} {parts : Key}

theorem decodeAll_of_spells (h : SpellsItems bytes parts) {fuel : Nat}
    (hfuel : parts.length ≤ fuel) : decodeAll fuel bytes = some parts := by
  induction parts generalizing bytes fuel with
  | nil =>
      obtain rfl := h.eq_nil_iff.mpr rfl
      cases fuel <;> rfl
  | cons part parts ih =>
      cases h with
      | @cons head others _ _ hpart hparts =>
          cases fuel with
          | zero => exact absurd hfuel (Nat.not_succ_le_zero _)
          | succ fuel =>
              have hfirst : KeyPart.decodeFirst (head ++ others) = some (part, others) :=
                decodeFirst_eq_some_iff.mpr ⟨head, hpart, rfl⟩
              have hrest := ih hparts (Nat.le_of_succ_le_succ hfuel)
              obtain ⟨more, rfl⟩ := hpart.exists_cons
              rw [List.cons_append] at *
              rw [decodeAll, hfirst]
              · simp only [Option.bind_eq_bind, Option.bind_some, hrest]
                rfl
              · exact List.cons_ne_nil _ _

theorem spells_of_decodeAll {fuel : Nat} (h : decodeAll fuel bytes = some parts) :
    SpellsItems bytes parts := by
  fun_induction decodeAll fuel bytes generalizing parts with
  | case1 fuel => cases h; exact .nil
  | case2 => cases h
  | case3 fuel bytes hne ih =>
      obtain ⟨⟨part, rest⟩, hpart, hrest⟩ := Option.bind_eq_some_iff.mp h
      obtain ⟨others, hothers, heq⟩ := Option.bind_eq_some_iff.mp hrest
      cases heq
      obtain ⟨first, hfirst, rfl⟩ := decodeFirst_eq_some_iff.mp hpart
      exact .cons hfirst (ih rest hothers)

/-- A key decodes exactly to the components that its bytes spell. -/
theorem decode_eq_ok_iff {key : EncodedKey} :
    key.decode = .ok parts ↔ SpellsItems key.bytes parts := by
  constructor
  · intro h
    rw [decode] at h
    split at h
    next hall =>
      cases h
      exact spells_of_decodeAll hall
    next => cases h
  · intro h
    rw [decode, decodeAll_of_spells h h.length_le]

theorem arity_eq_ok_iff {key : EncodedKey} {n : Nat} :
    key.arity = .ok n ↔ ∃ parts : Key, SpellsItems key.bytes parts ∧ parts.length = n := by
  rw [arity]
  constructor
  · intro h
    cases hdecode : key.decode with
    | error e => rw [hdecode] at h; cases h
    | ok parts =>
        rw [hdecode] at h
        cases h
        exact ⟨parts, decode_eq_ok_iff.mp hdecode, rfl⟩
  · rintro ⟨parts, hparts, rfl⟩
    rw [decode_eq_ok_iff.mpr hparts]
    rfl

/-- Of bytes that begin with components, these are the first ones. -/
theorem firstComponents_of_spells (h : SpellsItems first parts) (rest : Bytes) :
    firstComponents parts.length (first ++ rest) = some first := by
  induction parts generalizing first with
  | nil =>
      obtain rfl := h.eq_nil_iff.mpr rfl
      rw [List.length_nil, firstComponents]
  | cons part parts ih =>
      cases h with
      | @cons head others _ _ hpart hparts =>
          have hsplit : KeyPart.splitFirst (head ++ (others ++ rest))
              = some (head, others ++ rest) :=
            splitFirst_eq_some_iff.mpr ⟨⟨part, hpart⟩, rfl⟩
          have htail := ih hparts
          obtain ⟨more, rfl⟩ := hpart.exists_cons
          rw [List.append_assoc, List.cons_append, List.length_cons] at *
          rw [firstComponents, hsplit]
          · simp only [Option.bind_eq_bind, Option.bind_some, htail]
            rfl
          · exact List.cons_ne_nil _ _

/-- The first components are as many as asked for, or all there are. -/
theorem exists_of_firstComponents {level : Nat} (h : firstComponents level bytes = some first) :
    ∃ parts rest, SpellsItems first parts ∧ bytes = first ++ rest ∧
      (parts.length = level ∨ rest = []) := by
  fun_induction firstComponents level bytes generalizing first with
  | case1 bytes => cases h; exact ⟨[], bytes, .nil, rfl, .inl rfl⟩
  | case2 level => cases h; exact ⟨[], [], .nil, rfl, .inr rfl⟩
  | case3 level bytes hne ih =>
      obtain ⟨⟨head, tail⟩, hsplit, hrest⟩ := Option.bind_eq_some_iff.mp h
      obtain ⟨others, hothers, heq⟩ := Option.bind_eq_some_iff.mp hrest
      cases heq
      obtain ⟨⟨part, hpart⟩, rfl⟩ := splitFirst_eq_some_iff.mp hsplit
      obtain ⟨parts, rest, hparts, rfl, hcases⟩ := ih tail hothers
      refine ⟨part :: parts, rest, .cons hpart hparts, by rw [List.append_assoc], ?_⟩
      exact hcases.imp_left (congrArg (· + 1))

/-- The label of a key among groups is the beginning of the key that has the number of components
asked for, or the whole key. -/
theorem groupLabel_cases (key : EncodedKey) (level : Nat) :
    (key.groupLabel level).arity = .ok level ∧ (key.groupLabel level).bytes <+: key.bytes ∨
      key.groupLabel level = key := by
  rw [groupLabel, truncate]
  cases hfirst : firstComponents level key.bytes with
  | none => exact .inr rfl
  | some first =>
      obtain ⟨parts, rest, hparts, hbytes, rfl | rfl⟩ := exists_of_firstComponents hfirst
      · exact .inl ⟨arity_eq_ok_iff.mpr ⟨parts, hparts, rfl⟩, rest, hbytes.symm⟩
      · rw [List.append_nil] at hbytes
        exact .inr (congrArg EncodedKey.mk hbytes.symm)

/-- A key with the number of components asked for is the label of all keys that begin with it. -/
theorem groupLabel_of_prefix {key label : EncodedKey} {level : Nat}
    (harity : label.arity = .ok level) (h : label.bytes <+: key.bytes) :
    key.groupLabel level = label := by
  obtain ⟨parts, hparts, rfl⟩ := arity_eq_ok_iff.mp harity
  obtain ⟨rest, hrest⟩ := h
  rw [groupLabel, truncate, ← hrest, firstComponents_of_spells hparts]

end EncodedKey

end ViewIndex
