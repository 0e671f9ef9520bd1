import ViewIndex.Proofs.Key.Decoding
import ViewIndex.Proofs.Tree.Order

/-!
# Keys that begin alike

The bytes of a key begin with those of another one exactly if its first components are the other
key. In the order of keys, what begins with given bytes lies between these and their successor.
-/

namespace ViewIndex

/-! ## Byte strings that begin alike -/

namespace Bytes

theorem isGE_of_prefix {start bytes : Bytes} (h : start <+: bytes) :
    (compare bytes start).isGE = true := by
  obtain ⟨rest, rfl⟩ := h
  induction start with
  | nil => cases rest <;> rfl
  | cons b start ih => rwa [List.cons_append, compare_cons_self]

theorem toNat_add_one {b : UInt8} (h : b < 0xFF) : (b + 1).toNat = b.toNat + 1 := by
  have hlt : b.toNat < 255 := h
  rw [UInt8.toNat_add]
  exact Nat.mod_eq_of_lt (by simpa using Nat.succ_lt_succ hlt)

/-- What begins with a greater byte does not lie before the successor. -/
theorem exists_successor_of_lt {b c : UInt8} (h : b.toNat < c.toNat) (start bytes : Bytes) :
    ∃ bound, EncodedKey.successorBytes (b :: start) = some bound ∧
      compare (c :: bytes) bound ≠ .lt := by
  rw [EncodedKey.successorBytes]
  cases hsucc : EncodedKey.successorBytes start with
  | some rest =>
      refine ⟨b :: rest, rfl, ?_⟩
      rw [List.compare_cons_cons, compare_toNat, Nat.compare_eq_gt.mpr h]
      nofun
  | none =>
      have hb : b < 0xFF := by
        have hle := c.toNat_lt
        exact UInt8.lt_iff_toNat_lt.mpr (show b.toNat < 255 by omega)
      refine ⟨[b + 1], if_pos hb, ?_⟩
      rw [List.compare_cons_cons, compare_toNat, toNat_add_one hb]
      cases hhead : compare c.toNat (b.toNat + 1) with
      | lt =>
          rw [Nat.compare_eq_lt] at hhead
          omega
      | eq => cases bytes <;> nofun
      | gt => nofun

/-- Of the byte strings that do not lie before another one, those before its successor begin with
it. -/
theorem prefix_iff_lt_successor {start bytes : Bytes} (h : (compare bytes start).isGE = true) :
    start <+: bytes ↔ ∀ bound, EncodedKey.successorBytes start = some bound →
      compare bytes bound = .lt := by
  induction start generalizing bytes with
  | nil => simp [EncodedKey.successorBytes]
  | cons b start ih =>
      cases bytes with
      | nil => simp [List.compare_nil_cons] at h
      | cons c bytes =>
          rw [List.compare_cons_cons] at h
          rw [EncodedKey.successorBytes, List.cons_prefix_cons]
          cases hcmp : compare c b with
          | lt => rw [hcmp, Ordering.lt_then] at h; cases h
          | eq =>
              obtain rfl : c = b := Std.LawfulEqCmp.eq_of_compare hcmp
              rw [hcmp, Ordering.eq_then] at h
              rw [ih h, and_iff_right rfl]
              cases hsucc : EncodedKey.successorBytes start with
              | some rest => simp
              | none =>
                  -- The successor ends in a greater byte, if there is one.
                  have hlt (hb : c < 0xFF) : compare (c :: bytes) [c + 1] = .lt := by
                    apply compare_cons_of_lt
                    rw [compare_toNat, toNat_add_one hb, Nat.compare_eq_lt]
                    exact Nat.lt_succ_self _
                  by_cases hb : c < 0xFF <;> simp [hb, hlt]
          | gt =>
              rw [compare_toNat, Nat.compare_eq_gt] at hcmp
              have hne : b ≠ c := by
                rintro rfl
                exact Nat.lt_irrefl _ hcmp
              obtain ⟨bound, hbound, hnot⟩ := exists_successor_of_lt hcmp start bytes
              rw [EncodedKey.successorBytes] at hbound
              simp only [hne, false_and, false_iff, not_forall]
              exact ⟨bound, hbound, hnot⟩

/-- What lies between some bytes and others that begin with them begins with them, too. -/
theorem prefix_of_between {start middle bytes : Bytes} (hstart : (compare middle start).isGE = true)
    (hle : (compare middle bytes).isLE = true) (h : start <+: bytes) : start <+: middle := by
  have hge := isGE_of_prefix h
  rw [prefix_iff_lt_successor hge] at h
  rw [prefix_iff_lt_successor hstart]
  intro bound hbound
  exact Std.TransCmp.lt_of_isLE_of_lt hle (h bound hbound)

end Bytes

/-- Of the keys that do not lie before another one, those that begin with its bytes lie before its
strict upper bound. -/
theorem EncodedKey.prefix_iff_lt_prefixEnd {key start : EncodedKey}
    (h : (compare key start).isGE = true) : start.bytes <+: key.bytes ↔
      ∀ bound, start.prefixEnd = some bound → compare key bound = .lt := by
  rw [Bytes.prefix_iff_lt_successor h, prefixEnd]
  cases successorBytes start.bytes with
  | none => simp
  | some bytes =>
      simp only [Option.map_some, Option.some.injEq, forall_eq']
      rfl

/-- Byte strings that begin with another one lie between this one and its strict upper bound. -/
theorem EncodedKey.hasPrefix_iff (key start : EncodedKey) :
    key.hasPrefix start = true ↔ (compare key start).isGE = true ∧
      ∀ bound, start.prefixEnd = some bound → compare key bound = .lt := by
  rw [hasPrefix, List.isPrefixOf_iff_prefix]
  constructor
  · intro h
    have hge : (compare key start).isGE = true := Bytes.isGE_of_prefix h
    exact ⟨hge, (prefix_iff_lt_prefixEnd hge).mp h⟩
  · rintro ⟨hge, hlt⟩
    exact (prefix_iff_lt_prefixEnd hge).mpr hlt

/-- Of the keys that do not lie before another one, those that begin with its bytes lie before the
end of what it begins. -/
theorem KeyRange.isAfter_endOfPrefix {key : EncodedKey} {id : EntryId}
    (h : (compare id.key key).isGE = true) :
    (endOfPrefix key).isAfter id = true ↔ key.bytes <+: id.key.bytes := by
  rw [EncodedKey.prefix_iff_lt_prefixEnd h, endOfPrefix]
  cases key.prefixEnd with
  | none => simp [Cut.isAfter]
  | some bound => simp [Cut.isAfter, Ordering.isLT_iff_eq_lt]

/-! ## Components -/

namespace KeyPart

/-- The bytes of components begin with those of others if the first components are these. -/
theorem prefix_iff_collateItems_take {parts start : List KeyPart} {bytes first : Bytes}
    (hparts : encodeItems parts = .ok bytes) (hstart : encodeItems start = .ok first) :
    first <+: bytes ↔ collateItems (parts.take start.length) start = .eq := by
  induction start generalizing parts bytes first with
  | nil => cases hstart; simp [collateItems]
  | cons q start ih =>
      obtain ⟨x, xs, hx, hxs, rfl⟩ := exists_of_encodeItems_cons hstart
      cases parts with
      | nil =>
          cases hparts
          obtain ⟨rest, rfl⟩ := exists_of_encode hx
          simp [collateItems]
      | cons p parts =>
          obtain ⟨y, ys, hy, hys, rfl⟩ := exists_of_encodeItems_cons hparts
          rw [List.length_cons, List.take_succ_cons, collateItems, Ordering.then_eq_eq,
            ← ih hys hxs]
          have hcompare (r s : Bytes) := compare_encode p q hy hx r s
          constructor
          · rintro ⟨rest, hrest⟩
            have h := hcompare ys (xs ++ rest)
            rw [← List.append_assoc, hrest, Std.ReflOrd.compare_self] at h
            obtain ⟨hpart, htail⟩ := Ordering.then_eq_eq.mp h.symm
            exact ⟨hpart, rest, (Std.LawfulEqCmp.eq_of_compare htail).symm⟩
          · rintro ⟨hpart, rest, rfl⟩
            have h := hcompare [] []
            rw [hpart, List.append_nil, List.append_nil, Ordering.eq_then,
              Std.ReflOrd.compare_self] at h
            obtain rfl := Std.LawfulEqCmp.eq_of_compare h
            exact ⟨rest, by rw [List.append_assoc]⟩

theorem settledItems_eq_map (items : List KeyPart) : settledItems items = items.map settled := by
  induction items with
  | nil => rfl
  | cons part rest ih => rw [settledItems, ih, List.map_cons]

/-- The bytes of components begin with those of others if, up to the sign of zeros, the components
begin with the others. -/
theorem prefix_iff_settledItems {parts start : List KeyPart} {bytes first : Bytes}
    (hparts : encodeItems parts = .ok bytes) (hstart : encodeItems start = .ok first) :
    first <+: bytes ↔ settledItems start <+: settledItems parts := by
  obtain ⟨head, hhead, hcut⟩ := EncodedKey.firstComponents_encodeItems hparts start.length
  constructor
  · rintro ⟨rest, rfl⟩
    have hread := EncodedKey.firstComponents_of_spells (spells_of_encodeItems start hstart) rest
    rw [length_settledItems, hcut] at hread
    obtain rfl := Option.some.inj hread
    -- The same bytes are read back as the same components.
    have hdecode := Key.decode_of_encode (Key.encode_of_encodeItems hstart)
    rw [Key.decode_of_encode (Key.encode_of_encodeItems hhead)] at hdecode
    rw [← Except.ok.inj hdecode, settledItems_take]
    exact List.take_prefix _ _
  · intro h
    rw [List.prefix_iff_eq_take, length_settledItems, ← settledItems_take] at h
    rw [← encodeItems_settledItems, ← h, encodeItems_settledItems, hstart] at hhead
    obtain rfl := Except.ok.inj hhead
    obtain ⟨-, rest, -, hbytes, -⟩ := EncodedKey.exists_of_firstComponents hcut
    exact ⟨rest, hbytes.symm⟩

theorem settledItems_prefix_iff {start parts : List KeyPart} :
    settledItems start <+: settledItems parts ↔ start.length ≤ parts.length ∧
      ∀ i (hs : i < start.length) (hp : i < parts.length), start[i].settled = parts[i].settled := by
  rw [settledItems_eq_map, settledItems_eq_map, List.prefix_iff_getElem]
  simp only [List.length_map, List.getElem_map]
  constructor
  · rintro ⟨hle, hall⟩
    exact ⟨hle, fun i hs _ => hall i hs⟩
  · rintro ⟨hle, hall⟩
    exact ⟨hle, fun i hs => hall i hs (Nat.lt_of_lt_of_le hs hle)⟩

end KeyPart

namespace Key

/-- The first components of a key are the beginning of its bytes: cutting the bytes gives the bytes
of these components, bytes begin with those of a key whose components come first, the two zeros
being one, and whatever begins with some bytes is what lies between them and their strict upper
bound. -/
theorem prefixes_of_allFinite :
    (∀ a : Key, KeyPart.allFinite a = true → ∃ key : EncodedKey, a.encode = .ok key ∧
      ∀ n, ∃ first : EncodedKey, Key.encode (a.take n) = .ok first ∧ key.truncate n = .ok first) ∧
    (∀ a p : Key, KeyPart.allFinite a = true → KeyPart.allFinite p = true →
      ∃ key start : EncodedKey, a.encode = .ok key ∧ p.encode = .ok start ∧
        (key.hasPrefix start = true ↔ p.length ≤ a.length ∧
          ∀ i (hp : i < p.length) (ha : i < a.length), p[i].settled = a[i].settled)) ∧
    ∀ key start : EncodedKey, key.hasPrefix start = true ↔ (compare key start).isGE = true ∧
      ∀ bound, start.prefixEnd = some bound → compare key bound = .lt := by
  refine ⟨fun a ha => ?_, fun a p ha hp => ?_, EncodedKey.hasPrefix_iff⟩
  · obtain ⟨bytes, hitems, hencode⟩ := encode_of_isFinite ha
    refine ⟨⟨bytes⟩, hencode, fun n => ?_⟩
    obtain ⟨first, hfirst, hcut⟩ := EncodedKey.firstComponents_encodeItems hitems n
    exact ⟨⟨first⟩, encode_of_encodeItems hfirst, by rw [EncodedKey.truncate, hcut]⟩
  · obtain ⟨bytes, hitems, hencode⟩ := encode_of_isFinite ha
    obtain ⟨first, hstart, hencode'⟩ := encode_of_isFinite hp
    refine ⟨⟨bytes⟩, ⟨first⟩, hencode, hencode', ?_⟩
    rw [EncodedKey.hasPrefix, List.isPrefixOf_iff_prefix,
      KeyPart.prefix_iff_settledItems hitems hstart, KeyPart.settledItems_prefix_iff]

/-- A key that begins with a negative zero and a text with a zero character, cut behind the text, is
the key with a positive zero. Bytes that are all 255 have no successor. -/
theorem prefixes_of_allFinite_zeros :
    let a : Key := [.number ⟨Binary64.signBit⟩, .text "a\x00b", .array [.null]]
    let p : Key := [.number .zero, .text "a\x00b"]
    (∃ key first : EncodedKey, a.encode = .ok key ∧ Key.encode (a.take 2) = .ok first ∧
      key.truncate 2 = .ok first) ∧
    (∃ key start : EncodedKey, a.encode = .ok key ∧ p.encode = .ok start ∧
      key.hasPrefix start = true) ∧
    (⟨[0xFF, 0xFF, 0x00]⟩ : EncodedKey).hasPrefix ⟨[0xFF, 0xFF]⟩ = true := by
  obtain ⟨hcut, hbegin, hbytes⟩ := prefixes_of_allFinite
  refine ⟨?_, ?_, (hbytes _ _).mpr ⟨by decide, fun bound hbound => by cases hbound⟩⟩
  · obtain ⟨key, hkey, hlevels⟩ :=
      hcut [.number ⟨Binary64.signBit⟩, .text "a\x00b", .array [.null]] (by decide)
    obtain ⟨first, hfirst, htruncate⟩ := hlevels 2
    exact ⟨key, first, hkey, hfirst, htruncate⟩
  · obtain ⟨key, start, hkey, hstart, hiff⟩ :=
      hbegin [.number ⟨Binary64.signBit⟩, .text "a\x00b", .array [.null]]
        [.number .zero, .text "a\x00b"] (by decide) (by decide)
    refine ⟨key, start, hkey, hstart, hiff.mpr ⟨by decide, fun i hp _ => ?_⟩⟩
    match i, hp with
    | 0, _ => rfl
    | 1, _ => rfl

end Key

end ViewIndex
