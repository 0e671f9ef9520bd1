import ViewIndex.Proofs.Key.Spelling

/-!
# Reading encoded keys back

The bytes of an encoded component spell this component with negative zeros made positive. So the
components of a key can be read off its bytes one after the other, and the first few of them are the
bytes of a key of their own.
-/

namespace ViewIndex

theorem Bytes.ofBigEndian_bigEndian {width n : Nat} (h : n < 256 ^ width) :
    ofBigEndian (bigEndian width n) = n := by
  induction width generalizing n with
  | zero =>
      rw [Nat.pow_zero, Nat.lt_one_iff] at h
      rw [h]
      rfl
  | succ width ih =>
      have hpow : 2 ^ (8 * width) = 256 ^ width := Nat.pow_mul 2 8 width
      have hhigh : n / 256 ^ width < 256 := Nat.div_lt_of_lt_mul (by rwa [Nat.pow_succ] at h)
      have hlow : n % 256 ^ width < 256 ^ width := Nat.mod_lt n (Nat.pow_pos (by decide))
      rw [bigEndian_succ, ofBigEndian, length_bigEndian, ← bigEndian_mod, ih hlow,
        UInt8.toNat_ofNat_of_lt' hhigh, Nat.shiftLeft_eq, hpow, Nat.mul_comm, Nat.div_add_mod]

namespace Binary64

theorem unsignedZero_unsignedZero (x : Binary64) :
    x.unsignedZero.unsignedZero = x.unsignedZero := by
  by_cases h : x.isZero = true
  · simp only [unsignedZero, if_pos h]
    rfl
  · simp only [unsignedZero, if_neg h]

theorem isFinite_unsignedZero (x : Binary64) : x.unsignedZero.isFinite = x.isFinite := by
  unfold unsignedZero
  split
  next h =>
    obtain ⟨bits⟩ := x
    simp only [isZero, Bool.or_eq_true, beq_iff_eq] at h
    rcases h with rfl | rfl <;> rfl
  next => rfl

end Binary64

namespace KeyPart

/-! ## One component -/

theorem ofOrderedWord_orderedWord (x : Binary64) : ofOrderedWord (orderedWord x) = x := by
  have hsign : Binary64.signBit.toNat = 2 ^ 63 := rfl
  have hword := orderedWord_toNat x
  have hbits := x.bits.toNat_lt
  unfold ofOrderedWord
  cases hneg : x.isNegative with
  | true =>
      have hhigh := (isNegative_iff x).mp hneg
      rw [hneg, if_pos rfl] at hword
      have hlow : ¬ Binary64.signBit ≤ orderedWord x := by
        rw [UInt64.le_iff_toNat_le]
        omega
      rw [if_neg hlow, orderedWord, if_pos hneg, UInt64.not_not]
  | false =>
      rw [hneg, if_neg Bool.false_ne_true] at hword
      have hhigh : Binary64.signBit ≤ orderedWord x := by
        rw [UInt64.le_iff_toNat_le]
        omega
      rw [if_pos hhigh, orderedWord, if_neg (by simp [hneg]), UInt64.add_sub_cancel]

mutual

/-- The component as it is read back: negative zeros are positive. -/
def settled : KeyPart → KeyPart
  | .number x => .number x.unsignedZero
  | .array items => .array (settledItems items)
  | part => part

def settledItems : List KeyPart → List KeyPart
  | [] => []
  | part :: rest => part.settled :: settledItems rest

end

/-- Of the numbers only negative zero is read back as another one. -/
theorem settled_number (x : Binary64) :
    settled (.number x) = .number (if x = ⟨Binary64.signBit⟩ then .zero else x) := by
  obtain ⟨bits⟩ := x
  rw [settled, Binary64.unsignedZero]
  by_cases hnegative : bits = Binary64.signBit
  · simp [Binary64.isZero, hnegative]
  · by_cases hpositive : bits = 0
    · subst hpositive
      rfl
    · simp [Binary64.isZero, hnegative, hpositive]

theorem length_settledItems (items : List KeyPart) : (settledItems items).length = items.length := by
  induction items with
  | nil => rfl
  | cons part rest ih => rw [settledItems, List.length_cons, List.length_cons, ih]

mutual

theorem encode_settled : ∀ part : KeyPart, encode part.settled = encode part
  | .null | .bool _ | .text _ => rfl
  | .number x => by
      rw [settled, encode, encode, Binary64.isFinite_unsignedZero,
        Binary64.unsignedZero_unsignedZero]
  | .array items => by rw [settled, encode, encode, encodeItems_settledItems items]

theorem encodeItems_settledItems : ∀ items, encodeItems (settledItems items) = encodeItems items
  | [] => rfl
  | part :: rest => by
      rw [settledItems, encodeItems, encodeItems, encode_settled part,
        encodeItems_settledItems rest]

end

mutual

/-- Encoding spells out the component as it is read back. -/
theorem spells_of_encode : ∀ (part : KeyPart) {bytes : Bytes}, encode part = .ok bytes →
    Spells bytes part.settled
  | .null, _, h => by cases h; exact .null
  | .bool false, _, h => by cases h; exact .bool false
  | .bool true, _, h => by cases h; exact .bool true
  | .number x, _, h => by
      obtain rfl := eq_of_encode_number h
      have hspells := Spells.number (Bytes.length_bigEndian 8 (orderedWord x.unsignedZero).toNat)
      rwa [Bytes.ofBigEndian_bigEndian (UInt64.toNat_lt _), UInt64.ofNat_toNat,
        ofOrderedWord_orderedWord] at hspells
  | .text s, _, h => by cases h; exact .text s
  | .array items, _, h => by
      obtain ⟨inner, hinner, rfl⟩ := exists_of_encode_array h
      exact .array (spells_of_encodeItems items hinner)

theorem spells_of_encodeItems : ∀ (items : List KeyPart) {bytes : Bytes},
    encodeItems items = .ok bytes → SpellsItems bytes (settledItems items)
  | [], _, h => by cases h; exact .nil
  | part :: parts, _, h => by
      obtain ⟨first, others, hfirst, hothers, rfl⟩ := exists_of_encodeItems_cons h
      exact .cons (spells_of_encode part hfirst) (spells_of_encodeItems parts hothers)

end

theorem decodeFirst_encode {part : KeyPart} {bytes : Bytes} (h : encode part = .ok bytes)
    (rest : Bytes) : decodeFirst (bytes ++ rest) = some (part.settled, rest) :=
  decodeFirst_eq_some_iff.mpr ⟨bytes, spells_of_encode part h, rfl⟩

theorem splitFirst_encode {part : KeyPart} {bytes : Bytes} (h : encode part = .ok bytes)
    (rest : Bytes) : splitFirst (bytes ++ rest) = some (bytes, rest) :=
  splitFirst_eq_some_iff.mpr ⟨⟨part.settled, spells_of_encode part h⟩, rfl⟩

end KeyPart

/-! ## Keys -/

namespace EncodedKey

open KeyPart (encodeItems exists_of_encodeItems_cons settledItems)

theorem firstComponents_encodeItems {parts : Key} {bytes : Bytes}
    (h : encodeItems parts = .ok bytes) (level : Nat) :
    ∃ first, encodeItems (parts.take level) = .ok first ∧
      firstComponents level bytes = some first := by
  induction level generalizing parts bytes with
  | zero => exact ⟨[], rfl, by rw [firstComponents]⟩
  | succ level ih =>
      cases parts with
      | nil =>
          cases h
          exact ⟨[], rfl, by rw [firstComponents]⟩
      | cons part parts =>
          obtain ⟨head, others, hhead, hothers, rfl⟩ := exists_of_encodeItems_cons h
          obtain ⟨tail, htail, hfirst⟩ := ih hothers
          have hsplit := KeyPart.splitFirst_encode hhead others
          refine ⟨head ++ tail, ?_, ?_⟩
          · rw [List.take_succ_cons, KeyPart.encodeItems, hhead, htail]
            rfl
          · obtain ⟨more, rfl⟩ := KeyPart.exists_of_encode hhead
            rw [List.cons_append] at *
            rw [firstComponents, hsplit]
            · simp only [Option.bind_eq_bind, Option.bind_some, hfirst]
              rfl
            · exact List.cons_ne_nil _ _

/-- The bytes are those of a key with these components, and the components are read back as they
are. -/
structure Decodes (key : EncodedKey) (parts : Key) : Prop where
  decode_eq : key.decode = .ok parts
  encode_eq : parts.encode = .ok key

end EncodedKey

namespace Key

open EncodedKey (Decodes)

variable {a b : Key} {x y : EncodedKey}

theorem encodeItems_of_encode (h : a.encode = .ok x) : KeyPart.encodeItems a = .ok x.bytes := by
  rw [encode] at h
  cases hitems : KeyPart.encodeItems a with
  | error e => rw [hitems] at h; cases h
  | ok bytes => rw [hitems] at h; cases h; rfl

theorem encode_of_encodeItems {bytes : Bytes} (h : KeyPart.encodeItems a = .ok bytes) :
    a.encode = .ok ⟨bytes⟩ := by
  rw [encode, h]
  rfl

/-- Encoded keys are compared like the keys. -/
theorem compare_of_encode (ha : a.encode = .ok x) (hb : b.encode = .ok y) :
    compare x y = a.collate b := by
  have h := KeyPart.compare_encodeItems a b (encodeItems_of_encode ha) (encodeItems_of_encode hb)
    KeyPart.ends_nil KeyPart.ends_nil
  rw [List.append_nil, List.append_nil, Std.ReflOrd.compare_self, Ordering.then_eq] at h
  exact h

theorem decode_of_encode (h : a.encode = .ok x) : x.decode = .ok (KeyPart.settledItems a) :=
  EncodedKey.decode_eq_ok_iff.mpr (KeyPart.spells_of_encodeItems a (encodeItems_of_encode h))

theorem decodes_of_encode (h : a.encode = .ok x) : x.Decodes (KeyPart.settledItems a) where
  decode_eq := decode_of_encode h
  encode_eq := by
    rw [encode, KeyPart.encodeItems_settledItems]
    exact h

end Key

namespace EncodedKey.Decodes

variable {key : EncodedKey} {parts : Key}

/-- What was read back stays as it is. -/
theorem settled (h : key.Decodes parts) : KeyPart.settledItems parts = parts := by
  have hdecode := (Key.decode_of_encode h.encode_eq).symm.trans h.decode_eq
  exact Except.ok.inj hdecode

theorem arity (h : key.Decodes parts) : key.arity = .ok parts.length := by
  rw [EncodedKey.arity, h.decode_eq]
  rfl

end EncodedKey.Decodes

namespace Key

/-- The bytes of a key say what its components are: they are read back all of them, and each is read
off whatever bytes follow its own. -/
theorem decode_encode_of_allFinite :
    (∀ a : Key, KeyPart.allFinite a = true → ∃ key : EncodedKey,
      a.encode = .ok key ∧ key.decode = .ok (KeyPart.settledItems a) ∧
        key.arity = .ok a.length) ∧
    ∀ part : KeyPart, part.isFinite = true → ∃ bytes : Bytes,
      part.encode = .ok bytes ∧ ∀ rest : Bytes,
        KeyPart.decodeFirst (bytes ++ rest) = some (part.settled, rest) ∧
        KeyPart.splitFirst (bytes ++ rest) = some (bytes, rest) := by
  constructor
  · intro a hfinite
    obtain ⟨bytes, -, hencode⟩ := encode_of_isFinite hfinite
    have hdecodes := decodes_of_encode hencode
    refine ⟨⟨bytes⟩, hencode, hdecodes.decode_eq, ?_⟩
    rw [hdecodes.arity, KeyPart.length_settledItems]
  · intro part hfinite
    obtain ⟨bytes, hencode⟩ := KeyPart.encode_of_isFinite part hfinite
    exact ⟨bytes, hencode, fun rest =>
      ⟨KeyPart.decodeFirst_encode hencode rest, KeyPart.splitFirst_encode hencode rest⟩⟩

/-- A text with a zero character, and a negative zero in an array within an array, which is read off
bytes that could go on a text or end an array. -/
theorem decode_encode_of_allFinite_nested :
    let inner : KeyPart := .array [.array [.number ⟨Binary64.signBit⟩], .text "a\x00b"]
    let settled : KeyPart := .array [.array [.number .zero], .text "a\x00b"]
    (∃ key : EncodedKey, Key.encode [inner, .null] = .ok key ∧
      key.decode = .ok [settled, .null] ∧ key.arity = .ok 2) ∧
    ∃ bytes : Bytes, inner.encode = .ok bytes ∧
      KeyPart.decodeFirst (bytes ++ [0xFF, 0x00, 0x00]) = some (settled, [0xFF, 0x00, 0x00]) := by
  obtain ⟨hkeys, hparts⟩ := decode_encode_of_allFinite
  refine ⟨hkeys _ (by decide), ?_⟩
  obtain ⟨bytes, hencode, hread⟩ :=
    hparts (.array [.array [.number ⟨Binary64.signBit⟩], .text "a\x00b"]) (by decide)
  exact ⟨bytes, hencode, (hread _).1⟩

end Key

theorem KeyPart.settledItems_take (items : List KeyPart) (n : Nat) :
    settledItems (items.take n) = (settledItems items).take n := by
  induction items generalizing n with
  | nil => simp [settledItems]
  | cons part rest ih =>
      cases n with
      | zero => rfl
      | succ n => rw [List.take_succ_cons, settledItems, settledItems, List.take_succ_cons, ih]

/-- The label of a group is the key of the first components. -/
theorem EncodedKey.Decodes.groupLabel {key : EncodedKey} {parts : Key} (h : key.Decodes parts)
    (level : Nat) : (key.groupLabel level).Decodes (parts.take level) := by
  obtain ⟨first, hitems, hfirst⟩ :=
    firstComponents_encodeItems (Key.encodeItems_of_encode h.encode_eq) level
  have hdecodes := Key.decodes_of_encode (Key.encode_of_encodeItems hitems)
  rw [KeyPart.settledItems_take, h.settled] at hdecodes
  rw [EncodedKey.groupLabel, truncate, hfirst]
  exact hdecodes

end ViewIndex
