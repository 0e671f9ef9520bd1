import ViewIndex.Proofs.Key.Decoding

/-!
# Bytes that decode are the encoding of what they decode to

Reading any bytes either fails or accounts for every one of them: the bytes part into those of the
components, none of which is empty. There is one way to write a component, so encoding gives the
bytes back that were read. The exceptions are numbers: a negative zero is written as the positive
one, and what is not finite is not written at all.
-/

namespace ViewIndex

namespace Bytes

theorem ofBigEndian_cons (b : UInt8) (rest : Bytes) :
    ofBigEndian (b :: rest) = b.toNat * 256 ^ rest.length + ofBigEndian rest := by
  rw [ofBigEndian, Nat.shiftLeft_eq, Nat.pow_mul]

theorem ofBigEndian_lt (bytes : Bytes) : ofBigEndian bytes < 256 ^ bytes.length := by
  induction bytes with
  | nil => exact Nat.one_pos
  | cons b rest ih =>
      have hb := b.toNat_lt
      have hstep : (b.toNat + 1) * 256 ^ rest.length ≤ 256 * 256 ^ rest.length :=
        Nat.mul_le_mul_right _ (by omega)
      rw [Nat.add_mul, Nat.one_mul] at hstep
      rw [ofBigEndian_cons, List.length_cons, Nat.pow_succ, Nat.mul_comm (256 ^ rest.length)]
      omega

theorem bigEndian_ofBigEndian (bytes : Bytes) :
    bigEndian bytes.length (ofBigEndian bytes) = bytes := by
  induction bytes with
  | nil => rfl
  | cons b rest ih =>
      have hlt := ofBigEndian_lt rest
      have hlow : ofBigEndian (b :: rest) % 256 ^ rest.length = ofBigEndian rest := by
        rw [ofBigEndian_cons, Nat.mul_add_mod_self_right, Nat.mod_eq_of_lt hlt]
      have hhigh : ofBigEndian (b :: rest) / 256 ^ rest.length = b.toNat := by
        rw [ofBigEndian_cons, Nat.mul_comm, Nat.mul_add_div (Nat.pow_pos (by decide)),
          Nat.div_eq_of_lt hlt, Nat.add_zero]
      rw [List.length_cons, bigEndian_succ, hhigh, ← bigEndian_mod, hlow, ih, UInt8.ofNat_toNat]

end Bytes

namespace KeyPart

theorem orderedWord_ofOrderedWord (word : UInt64) : orderedWord (ofOrderedWord word) = word := by
  have hsign : Binary64.signBit.toNat = 2 ^ 63 := rfl
  have hword := word.toNat_lt
  unfold ofOrderedWord
  split
  next hhigh =>
    have hle := UInt64.le_iff_toNat_le.mp hhigh
    have hpositive : ¬ (⟨word - Binary64.signBit⟩ : Binary64).isNegative = true := by
      rw [isNegative_iff, UInt64.toNat_sub_of_le _ _ hhigh]
      omega
    rw [orderedWord, if_neg hpositive, UInt64.sub_add_cancel]
  next hlow =>
    have hlt := mt UInt64.le_iff_toNat_le.mpr hlow
    have hnot : (~~~word).toNat = 2 ^ 64 - 1 - word.toNat := UInt64.toNat_not word
    have hnegative : (⟨~~~word⟩ : Binary64).isNegative = true := by
      rw [isNegative_iff, hnot]
      omega
    rw [orderedWord, if_pos hnegative, UInt64.not_not]

/-! ## Writing what was read -/

mutual

/-- The numbers of a component, at any depth. -/
def numbers : KeyPart → List Binary64
  | .number x => [x]
  | .array items => numbersOf items
  | _ => []

/-- The numbers of components, at any depth. -/
def numbersOf : List KeyPart → List Binary64
  | [] => []
  | part :: rest => part.numbers ++ numbersOf rest

end

/-- A finite number other than negative zero: it is written with its own bits. -/
def Written (x : Binary64) : Prop := x.isFinite = true ∧ x ≠ ⟨Binary64.signBit⟩

theorem Written.encode_number {x : Binary64} (h : Written x) :
    encode (.number x) = .ok (numberTag :: Bytes.bigEndian 8 (orderedWord x).toNat) := by
  have hsettled := settled_number x
  rw [if_neg h.2, settled, number.injEq] at hsettled
  rw [encode, if_pos h.1, hsettled]

mutual

/-- Bytes that spell a component are its encoding. -/
theorem encode_of_spells : ∀ (part : KeyPart) {bytes : Bytes}, Spells bytes part →
    (∀ x ∈ part.numbers, Written x) → encode part = .ok bytes
  | .null, _, .null, _ => rfl
  | .bool false, _, .bool false, _ => rfl
  | .bool true, _, .bool true, _ => rfl
  | .number _, _, @Spells.number word hword, h => by
      have hlt := Bytes.ofBigEndian_lt word
      have hbytes := Bytes.bigEndian_ofBigEndian word
      rw [hword] at hlt hbytes
      rw [Written.encode_number (h _ (by simp [numbers])), orderedWord_ofOrderedWord,
        UInt64.toNat_ofNat_of_lt' hlt, hbytes]
  | .text s, _, .text _, _ => rfl
  | .array items, _, .array hitems, h => by
      rw [encode, encodeItems_of_spells items hitems (by simpa [numbers] using h)]
      rfl

theorem encodeItems_of_spells : ∀ (items : List KeyPart) {bytes : Bytes},
    SpellsItems bytes items → (∀ x ∈ numbersOf items, Written x) → encodeItems items = .ok bytes
  | [], _, .nil, _ => rfl
  | part :: rest, _, .cons hfirst hothers, h => by
      rw [numbersOf, List.forall_mem_append] at h
      rw [encodeItems, encode_of_spells part hfirst h.1, encodeItems_of_spells rest hothers h.2]
      rfl

end

/-! ## Steps of the decoder -/

/-- What is read off some bytes is their beginning, and it is not empty. -/
theorem exists_of_decode_eq_some {fuel : Nat} {bytes rest : Bytes} {part : KeyPart}
    (h : decode fuel bytes = some (part, rest)) : ∃ first, first ≠ [] ∧ bytes = first ++ rest := by
  obtain ⟨first, hspells, hbytes⟩ := exists_of_decode h
  exact ⟨first, List.ne_nil_of_length_pos hspells.length_pos, hbytes⟩

/-- The decoder does not run out of fuel. -/
theorem decode_eq_decodeFirst {fuel : Nat} {bytes : Bytes} (h : 2 * bytes.length ≤ fuel) :
    decode fuel bytes = decodeFirst bytes := by
  apply Option.ext
  rintro ⟨part, rest⟩
  constructor
  · intro hdecode
    exact decodeFirst_eq_some_iff.mpr (exists_of_decode hdecode)
  · intro hdecode
    obtain ⟨first, hfirst, rfl⟩ := decodeFirst_eq_some_iff.mp hdecode
    rw [List.length_append] at h
    exact decode_of_spells part hfirst (by omega) rest

/-- The bytes of components part into those of each of them, which are read off whatever follows. -/
theorem SpellsItems.exists_pieces {bytes : Bytes} {parts : List KeyPart}
    (h : SpellsItems bytes parts) : ∃ pieces : List Bytes, bytes = pieces.flatten ∧
      List.Forall₂ (fun piece part => piece ≠ [] ∧
        ∀ rest, decodeFirst (piece ++ rest) = some (part, rest)) pieces parts := by
  induction parts generalizing bytes with
  | nil =>
      cases h
      exact ⟨[], rfl, .nil⟩
  | cons part rest ih =>
      cases h with
      | @cons first others _ _ hfirst hothers =>
          obtain ⟨pieces, rfl, hpieces⟩ := ih hothers
          have hread (rest : Bytes) : decodeFirst (first ++ rest) = some (part, rest) :=
            decodeFirst_eq_some_iff.mpr ⟨first, hfirst, rfl⟩
          exact ⟨first :: pieces, rfl,
            .cons ⟨List.ne_nil_of_length_pos hfirst.length_pos, hread⟩ hpieces⟩

end KeyPart

namespace EncodedKey

open KeyPart (Written)

/-- More fuel than there are bytes changes nothing. -/
theorem decodeAll_eq_toOption {fuel : Nat} {key : EncodedKey} (h : key.bytes.length ≤ fuel) :
    decodeAll fuel key.bytes = key.decode.toOption := by
  apply Option.ext
  intro parts
  have hdecode : key.decode.toOption = some parts ↔ key.decode = .ok parts := by
    cases key.decode <;> simp [Except.toOption]
  rw [hdecode, decode_eq_ok_iff]
  exact ⟨spells_of_decodeAll, fun hspells => decodeAll_of_spells hspells (hspells.length_le.trans h)⟩

theorem decode_cases (key : EncodedKey) :
    key.decode = .error .malformed ∨ ∃ parts, key.decode = .ok parts := by
  unfold decode
  split
  · exact .inr ⟨_, rfl⟩
  · exact .inl rfl

/-- Any bytes are either malformed or part into the bytes of components, each of which is read in
one step that takes at least one byte and leaves the rest; and unless a number is a negative zero or
not finite, the components are encoded as these bytes and no others decode to them. -/
theorem decode_accounts (key : EncodedKey) :
    (∀ fuel, key.bytes.length ≤ fuel → decodeAll fuel key.bytes = key.decode.toOption) ∧
    (∀ (fuel : Nat) (bytes : Bytes),
      (2 * bytes.length ≤ fuel → KeyPart.decode fuel bytes = KeyPart.decodeFirst bytes) ∧
      ∀ part rest, KeyPart.decode fuel bytes = some (part, rest) →
        ∃ first, first ≠ [] ∧ bytes = first ++ rest) ∧
    (key.decode = .error .malformed ∨ ∃ (parts : Key) (pieces : List Bytes),
      key.decode = .ok parts ∧ key.bytes = pieces.flatten ∧
        List.Forall₂ (fun piece part => piece ≠ [] ∧
          ∀ rest, KeyPart.decodeFirst (piece ++ rest) = some (part, rest)) pieces parts) ∧
    ∀ parts : Key, key.decode = .ok parts →
      (∀ x ∈ KeyPart.numbersOf parts, x.isFinite = true ∧ x ≠ ⟨Binary64.signBit⟩) →
        parts.encode = .ok key ∧ ∀ other : EncodedKey, other.decode = .ok parts → other = key := by
  refine ⟨fun fuel => decodeAll_eq_toOption, fun fuel bytes =>
    ⟨KeyPart.decode_eq_decodeFirst, fun _ _ => KeyPart.exists_of_decode_eq_some⟩, ?_,
    fun parts hparts hwritten => ?_⟩
  · refine (decode_cases key).imp_right ?_
    rintro ⟨parts, hparts⟩
    obtain ⟨pieces, hbytes, hpieces⟩ := (decode_eq_ok_iff.mp hparts).exists_pieces
    exact ⟨parts, pieces, hparts, hbytes, hpieces⟩
  · have hencode (other : EncodedKey) (h : other.decode = .ok parts) : parts.encode = .ok other :=
      Key.encode_of_encodeItems
        (KeyPart.encodeItems_of_spells parts (decode_eq_ok_iff.mp h) hwritten)
    refine ⟨hencode key hparts, fun other hother => ?_⟩
    exact Except.ok.inj ((hencode other hother).symm.trans (hencode key hparts))

/-- An array with a text that ends in a zero character and the number 1.5, and a null behind it. -/
theorem decode_accounts_nested :
    let key : EncodedKey := ⟨[0x50, 0x40, 0x61, 0x00, 0xFF, 0x00, 0x00,
      0x30, 0xBF, 0xF8, 0x00, 0x00, 0x00, 0x00, 0x00, 0x00, 0x00, 0x10]⟩
    let parts : Key := [.array [.text "a\x00", .number ⟨0x3FF8000000000000⟩], .null]
    key.decode = .ok parts ∧ (decodeAll 100 key.bytes = some parts) ∧ parts.encode = .ok key ∧
      ∀ other : EncodedKey, other.decode = .ok parts → other = key := by
  intro key parts
  have hdecode : key.decode = .ok parts := by rfl
  obtain ⟨hfuel, -, -, hcanonical⟩ := decode_accounts key
  refine ⟨hdecode, (hfuel 100 (by decide)).trans (by rw [hdecode]; rfl), hcanonical parts hdecode ?_⟩
  decide

end EncodedKey

end ViewIndex
