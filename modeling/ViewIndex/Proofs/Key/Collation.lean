import ViewIndex.Proofs.Key.ByteOrder

/-!
# The byte order of encoded keys is the order of keys

Every component encodes so that it is told apart from another one, or from the end of an array,
before its last byte. By induction over the components, encoded keys compare like the keys.
-/

namespace ViewIndex.KeyPart

open Bytes (Ranks)

/-! ## What encodes -/

mutual

theorem encode_of_isFinite :
    ∀ part : KeyPart, part.isFinite = true → ∃ bytes, encode part = .ok bytes
  | .null, _ => ⟨_, rfl⟩
  | .bool false, _ => ⟨_, rfl⟩
  | .bool true, _ => ⟨_, rfl⟩
  | .number x, h => ⟨_, if_pos (by simpa [isFinite] using h)⟩
  | .text s, _ => ⟨_, rfl⟩
  | .array items, h => by
      obtain ⟨bytes, hbytes⟩ := encodeItems_of_allFinite items (by simpa [isFinite] using h)
      exact ⟨_, by rw [encode, hbytes]; rfl⟩

theorem encodeItems_of_allFinite :
    ∀ items : List KeyPart, allFinite items = true → ∃ bytes, encodeItems items = .ok bytes
  | [], _ => ⟨_, rfl⟩
  | part :: rest, h => by
      rw [allFinite, Bool.and_eq_true] at h
      obtain ⟨first, hfirst⟩ := encode_of_isFinite part h.1
      obtain ⟨others, hothers⟩ := encodeItems_of_allFinite rest h.2
      exact ⟨first ++ others, by rw [encodeItems, hfirst, hothers]; rfl⟩

end

mutual

theorem encode_of_not_isFinite :
    ∀ part : KeyPart, part.isFinite = false → encode part = .error .nonFiniteNumber
  | .number x, h => if_neg (by simpa [isFinite] using h)
  | .array items, h => by
      rw [encode, encodeItems_of_not_allFinite items (by simpa [isFinite] using h)]
      rfl

theorem encodeItems_of_not_allFinite :
    ∀ items : List KeyPart, allFinite items = false → encodeItems items = .error .nonFiniteNumber
  | part :: rest, h => by
      rw [allFinite, Bool.and_eq_false_iff] at h
      rw [encodeItems]
      cases hpart : part.isFinite with
      | false => rw [encode_of_not_isFinite part hpart]; rfl
      | true =>
          obtain ⟨first, hfirst⟩ := encode_of_isFinite part hpart
          rw [hfirst, encodeItems_of_not_allFinite rest (h.resolve_left (by simp [hpart]))]
          rfl

end

/-! ## Numbers -/

theorem isNegative_iff (x : Binary64) : x.isNegative = true ↔ 2 ^ 63 ≤ x.bits.toNat := by
  rw [Binary64.isNegative, decide_eq_true_iff, UInt64.le_iff_toNat_le]
  rfl

theorem orderedWord_toNat (x : Binary64) :
    (orderedWord x).toNat
      = if x.isNegative then 2 ^ 64 - 1 - x.bits.toNat else x.bits.toNat + 2 ^ 63 := by
  by_cases h : x.isNegative = true
  · rw [orderedWord, if_pos h, if_pos h]
    exact UInt64.toNat_not x.bits
  · have hlow := mt (isNegative_iff x).mpr h
    have hsign : Binary64.signBit.toNat = 2 ^ 63 := rfl
    rw [orderedWord, if_neg h, if_neg h, UInt64.toNat_add, hsign]
    omega

theorem compare_bits (v w : UInt64) : compare v w = compare v.toNat w.toNat := by
  show compareOfLessAndEq v w = compareOfLessAndEq v.toNat w.toNat
  simp only [compareOfLessAndEq, UInt64.lt_iff_toNat_lt, UInt64.toNat_inj]

/-- Ordered words compare like the numbers. -/
theorem compare_orderedWord (x y : Binary64) :
    compare (orderedWord x).toNat (orderedWord y).toNat = x.totalCompare y := by
  have hx := x.bits.toNat_lt
  have hy := y.bits.toNat_lt
  have hnegX := isNegative_iff x
  have hnegY := isNegative_iff y
  rw [orderedWord_toNat, orderedWord_toNat, Binary64.totalCompare]
  cases hxn : x.isNegative with
  | false =>
      cases hyn : y.isNegative with
      | false => exact (Bytes.compare_add_right _ _ _).trans (compare_bits _ _).symm
      | true =>
          simp only [hyn, true_iff] at hnegY
          exact Nat.compare_eq_gt.mpr (by simp only [if_true, Bool.false_eq_true, if_false]; omega)
  | true =>
      simp only [hxn, true_iff] at hnegX
      cases hyn : y.isNegative with
      | false =>
          exact Nat.compare_eq_lt.mpr (by simp only [if_true, Bool.false_eq_true, if_false]; omega)
      -- Two negative numbers: the one with the greater bits is smaller.
      | true =>
          simp only [if_true]
          rw [compare_bits]
          cases h : compare y.bits.toNat x.bits.toNat with
          | lt => rw [Nat.compare_eq_lt] at h ⊢; omega
          | eq => rw [Nat.compare_eq_eq] at h ⊢; omega
          | gt => rw [Nat.compare_eq_gt] at h ⊢; omega

/-! ## Components -/

/-- The first byte of an encoded component. -/
def tag : KeyPart → UInt8
  | .null => nullTag
  | .bool false => falseTag
  | .bool true => trueTag
  | .number _ => numberTag
  | .text _ => textTag
  | .array _ => arrayTag

theorem eq_of_encode_number {x : Binary64} {bytes : Bytes} (h : encode (.number x) = .ok bytes) :
    bytes = numberTag :: Bytes.bigEndian 8 (orderedWord x.unsignedZero).toNat := by
  rw [encode] at h
  split at h
  · cases h; rfl
  · cases h

theorem exists_of_encode_array {items : List KeyPart} {bytes : Bytes}
    (h : encode (.array items) = .ok bytes) :
    ∃ inner, encodeItems items = .ok inner ∧ bytes = arrayTag :: (inner ++ [arrayEnd]) := by
  rw [encode] at h
  cases hitems : encodeItems items with
  | error e => rw [hitems] at h; cases h
  | ok inner => rw [hitems] at h; cases h; exact ⟨inner, rfl, rfl⟩

theorem exists_of_encode {part : KeyPart} {bytes : Bytes} (h : encode part = .ok bytes) :
    ∃ rest, bytes = part.tag :: rest := by
  cases part with
  | null => cases h; exact ⟨_, rfl⟩
  | bool b => cases b <;> cases h <;> exact ⟨_, rfl⟩
  | number x => exact ⟨_, eq_of_encode_number h⟩
  | text s => cases h; exact ⟨_, rfl⟩
  | array items =>
      obtain ⟨inner, -, hbytes⟩ := exists_of_encode_array h
      exact ⟨_, hbytes⟩

theorem exists_of_encodeItems_cons {part : KeyPart} {rest : List KeyPart} {bytes : Bytes}
    (h : encodeItems (part :: rest) = .ok bytes) :
    ∃ first others, encode part = .ok first ∧ encodeItems rest = .ok others ∧
      bytes = first ++ others := by
  rw [encodeItems] at h
  cases hpart : encode part with
  | error e => rw [hpart] at h; cases h
  | ok first =>
      cases hrest : encodeItems rest with
      | error e => rw [hpart, hrest] at h; cases h
      | ok others => rw [hpart, hrest] at h; cases h; exact ⟨first, others, rfl, rfl, rfl⟩

/-- What may follow the components of a key or of an array: it is smaller than every component. -/
def Ends (r : Bytes) : Prop := ∀ part : KeyPart, ∀ s, compare r (part.tag :: s) = .lt

theorem ends_nil : Ends [] := fun _ _ => rfl

theorem ends_arrayEnd (r : Bytes) : Ends (arrayEnd :: r) := by
  intro part s
  apply Bytes.compare_cons_of_lt
  rcases part with _ | ⟨_ | _⟩ | _ | _ | _ <;> rfl

theorem compare_tag (a b : KeyPart) : compare a.tag b.tag = compare a.rank b.rank := by
  rcases a with _ | ⟨_ | _⟩ | _ | _ | _ <;> rcases b with _ | ⟨_ | _⟩ | _ | _ | _ <;> rfl

/-- Components of different kinds are ordered by kind. -/
theorem collate_of_tag_ne {a b : KeyPart} (h : a.tag ≠ b.tag) :
    collate a b = compare a.rank b.rank := by
  rcases a with _ | ⟨_ | _⟩ | _ | _ | _ <;> rcases b with _ | ⟨_ | _⟩ | _ | _ | _ <;>
    first
      | exact absurd rfl h
      | simp only [collate]

theorem compare_encode_of_tag_ne {a b : KeyPart} (h : a.tag ≠ b.tag) {x y : Bytes}
    (hx : encode a = .ok x) (hy : encode b = .ok y) (r s : Bytes) :
    compare (x ++ r) (y ++ s) = (collate a b).then (compare r s) := by
  obtain ⟨x, rfl⟩ := exists_of_encode hx
  obtain ⟨y, rfl⟩ := exists_of_encode hy
  rw [collate_of_tag_ne h, ← compare_tag, List.cons_append, List.cons_append,
    List.compare_cons_cons]
  cases hcmp : compare a.tag b.tag with
  | eq => exact absurd (Std.LawfulEqCmp.eq_of_compare hcmp) h
  | lt => rfl
  | gt => rfl

mutual

/-- Encoded components are told apart by the components, and only if these are the same by what
follows. -/
theorem compare_encode (a b : KeyPart) {x y : Bytes} (hx : encode a = .ok x)
    (hy : encode b = .ok y) (r s : Bytes) :
    compare (x ++ r) (y ++ s) = (collate a b).then (compare r s) := by
  by_cases htag : a.tag = b.tag
  -- Different tags decide. From here on the two components are of one kind.
  case neg => exact compare_encode_of_tag_ne htag hx hy r s
  match a, b with
  | .null, .null => cases hx; cases hy; simp [List.compare_cons_cons, collate]
  | .bool false, .bool false => cases hx; cases hy; simp [List.compare_cons_cons, collate]
  | .bool true, .bool true => cases hx; cases hy; simp [List.compare_cons_cons, collate]
  | .number p, .number q =>
      obtain rfl := eq_of_encode_number hx
      obtain rfl := eq_of_encode_number hy
      rw [List.cons_append, List.cons_append, Bytes.compare_cons_self,
        Bytes.compare_bigEndian (UInt64.toNat_lt _) (UInt64.toNat_lt _), compare_orderedWord,
        collate]
  | .text p, .text q =>
      cases hx
      cases hy
      rw [List.cons_append, List.cons_append, Bytes.compare_cons_self, Bytes.ranks_terminate,
        Bytes.compare_ofText, collate]
  | .array p, .array q =>
      obtain ⟨x, hp, rfl⟩ := exists_of_encode_array hx
      obtain ⟨y, hq, rfl⟩ := exists_of_encode_array hy
      rw [List.cons_append, List.cons_append, Bytes.compare_cons_self, List.append_assoc,
        List.append_assoc, List.singleton_append, List.singleton_append,
        compare_encodeItems p q hp hq (ends_arrayEnd r) (ends_arrayEnd s), collate,
        Bytes.compare_cons_self]

/-- The same for lists of components. -/
theorem compare_encodeItems (a b : List KeyPart) {x y : Bytes} (hx : encodeItems a = .ok x)
    (hy : encodeItems b = .ok y) {r s : Bytes} (hr : Ends r) (hs : Ends s) :
    compare (x ++ r) (y ++ s) = (collateItems a b).then (compare r s) := by
  match a, b with
  | [], [] => cases hx; cases hy; simp [collateItems]
  | [], q :: qs =>
      -- What ends the shorter list is smaller than the tag with which the longer one goes on.
      obtain ⟨first, others, hq, hqs, rfl⟩ := exists_of_encodeItems_cons hy
      obtain ⟨first, rfl⟩ := exists_of_encode hq
      cases hx
      rw [collateItems, Ordering.lt_then]
      exact hr q _
  | p :: ps, [] =>
      obtain ⟨first, others, hp, hps, rfl⟩ := exists_of_encodeItems_cons hx
      obtain ⟨first, rfl⟩ := exists_of_encode hp
      cases hy
      rw [collateItems, Ordering.gt_then]
      exact Std.OrientedCmp.gt_of_lt (hs p _)
  | p :: ps, q :: qs =>
      obtain ⟨first, others, hp, hps, rfl⟩ := exists_of_encodeItems_cons hx
      obtain ⟨first', others', hq, hqs, rfl⟩ := exists_of_encodeItems_cons hy
      rw [List.append_assoc, List.append_assoc, compare_encode p q hp hq,
        compare_encodeItems ps qs hps hqs hr hs, collateItems, Ordering.then_assoc]

end

end ViewIndex.KeyPart

namespace ViewIndex.Key

theorem encode_of_isFinite {key : Key} (h : KeyPart.allFinite key = true) :
    ∃ bytes, KeyPart.encodeItems key = .ok bytes ∧ key.encode = .ok ⟨bytes⟩ := by
  obtain ⟨bytes, hbytes⟩ := KeyPart.encodeItems_of_allFinite key h
  exact ⟨bytes, hbytes, by rw [encode, hbytes]; rfl⟩

theorem encode_eq_error_iff (key : Key) (e : KeyError) :
    key.encode = .error e ↔ KeyPart.allFinite key = false ∧ e = .nonFiniteNumber := by
  cases hfin : KeyPart.allFinite key with
  | true =>
      obtain ⟨bytes, _, henc⟩ := encode_of_isFinite hfin
      simp [henc]
  | false =>
      rw [encode, KeyPart.encodeItems_of_not_allFinite key hfin]
      simp [Except.map, eq_comm]

/-- Keys of finite numbers encode, and their encodings compare byte by byte like the keys; a key
with another number at some depth does not encode, for that reason. -/
theorem compare_encode_eq_collate (a b : Key) :
    (KeyPart.allFinite a = true → KeyPart.allFinite b = true →
      ∃ x y : EncodedKey, a.encode = .ok x ∧ b.encode = .ok y ∧
        compare x.bytes y.bytes = a.collate b) ∧
    (∀ e, a.encode = .error e ↔ KeyPart.allFinite a = false ∧ e = .nonFiniteNumber) := by
  refine ⟨fun ha hb => ?_, encode_eq_error_iff a⟩
  obtain ⟨x, hx, hencX⟩ := encode_of_isFinite ha
  obtain ⟨y, hy, hencY⟩ := encode_of_isFinite hb
  refine ⟨⟨x⟩, ⟨y⟩, hencX, hencY, ?_⟩
  have h := KeyPart.compare_encodeItems a b hx hy KeyPart.ends_nil KeyPart.ends_nil
  simpa [collate] using h

/-- A text with a zero character, a negative zero and an array that begins with another one. -/
theorem compare_encode_eq_collate_nested :
    let a : Key := [.text "a\x00b", .number ⟨Binary64.signBit⟩, .array [.null]]
    let b : Key := [.text "a\x00b", .number .zero, .array [.null, .bool false]]
    KeyPart.allFinite a = true ∧ KeyPart.allFinite b = true ∧
      ∃ x y : EncodedKey, a.encode = .ok x ∧ b.encode = .ok y ∧
        compare x.bytes y.bytes = a.collate b := by
  have ha : KeyPart.allFinite [.text "a\x00b", .number ⟨Binary64.signBit⟩, .array [.null]]
      = true := by decide
  have hb : KeyPart.allFinite [.text "a\x00b", .number .zero, .array [.null, .bool false]]
      = true := by decide
  exact ⟨ha, hb, (compare_encode_eq_collate _ _).1 ha hb⟩

end ViewIndex.Key
