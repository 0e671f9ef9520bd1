import Mathlib.Algebra.GroupWithZero.Nat
import ViewIndex.Key.Encoding

/-!
# Byte strings that compare like what they stand for

An encoding is read from left to right, so two encodings that are followed by more bytes should be
told apart by what they encode, and only if that is the same by what follows. `Bytes.Ranks` states
this. It holds of numbers of one width, of characters in UTF-8 and of escaped byte strings.
-/

namespace ViewIndex.Bytes

/-- Whatever follows two encodings, they compare first like what they encode, then like what
follows. -/
def Ranks {α : Type} (encode : α → Bytes) (order : α → α → Ordering) : Prop :=
  ∀ (a b : α) (r s : Bytes),
    compare (encode a ++ r) (encode b ++ s) = (order a b).then (compare r s)

theorem compare_cons_self (b : UInt8) (r s : Bytes) :
    compare (b :: r) (b :: s) = compare r s := by
  rw [List.compare_cons_cons, Std.ReflOrd.compare_self, Ordering.eq_then]

/-! ## Numbers of one width -/

theorem compare_add_left (k m n : Nat) : compare (k + m) (k + n) = compare m n := by
  cases h : compare m n with
  | lt => rw [Nat.compare_eq_lt] at h ⊢; omega
  | eq => rw [Nat.compare_eq_eq] at h ⊢; omega
  | gt => rw [Nat.compare_eq_gt] at h ⊢; omega

theorem compare_add_right (k m n : Nat) : compare (m + k) (n + k) = compare m n := by
  rw [Nat.add_comm m, Nat.add_comm n, compare_add_left]

/-- Numbers compare like their quotients, then like their remainders. -/
theorem compare_div_mod (unit m n : Nat) :
    compare m n = (compare (m / unit) (n / unit)).then (compare (m % unit) (n % unit)) := by
  cases h : compare (m / unit) (n / unit) with
  | lt => exact Nat.compare_eq_lt.mpr (Nat.lt_of_div_lt_div (Nat.compare_eq_lt.mp h))
  | gt => exact Nat.compare_eq_gt.mpr (Nat.lt_of_div_lt_div (Nat.compare_eq_gt.mp h))
  | eq =>
      have hquot : m / unit = n / unit := Nat.compare_eq_eq.mp h
      rw [← Nat.div_add_mod m unit, ← Nat.div_add_mod n unit, hquot, compare_add_left]
      simp

theorem compare_toNat (a b : UInt8) : compare a b = compare a.toNat b.toNat := by
  show compareOfLessAndEq a b = compareOfLessAndEq a.toNat b.toNat
  simp only [compareOfLessAndEq, UInt8.lt_iff_toNat_lt, UInt8.toNat_inj]

theorem compare_ofNat {m n : Nat} (hm : m < 256) (hn : n < 256) :
    compare (UInt8.ofNat m) (UInt8.ofNat n) = compare m n := by
  rw [compare_toNat, UInt8.toNat_ofNat_of_lt' hm, UInt8.toNat_ofNat_of_lt' hn]

theorem bigEndian_succ (width n : Nat) :
    bigEndian (width + 1) n = UInt8.ofNat (n / 256 ^ width) :: bigEndian width n := by
  rw [bigEndian, Nat.shiftRight_eq_div_pow, Nat.pow_mul]

theorem bigEndian_mod (width n : Nat) : bigEndian width (n % 256 ^ width) = bigEndian width n := by
  induction width generalizing n with
  | zero => rfl
  | succ width ih =>
      have hlow : n % 256 ^ (width + 1) % 256 ^ width = n % 256 ^ width :=
        Nat.mod_mod_of_dvd n (Nat.pow_dvd_pow 256 (Nat.le_succ width))
      have hhigh : n % 256 ^ (width + 1) / 256 ^ width = n / 256 ^ width % 256 := by
        rw [Nat.pow_succ, Nat.mod_mul_right_div_self]
      rw [bigEndian_succ, bigEndian_succ, ← ih (n % _), hlow, ih, hhigh]
      simp [UInt8.ofNat, BitVec.ofNat, Fin.ofNat]

/-- Numbers of one width compare like their bytes, the most significant one first. -/
theorem compare_bigEndian {width m n : Nat} (hm : m < 256 ^ width) (hn : n < 256 ^ width)
    (r s : Bytes) :
    compare (bigEndian width m ++ r) (bigEndian width n ++ s)
      = (compare m n).then (compare r s) := by
  induction width generalizing m n with
  | zero =>
      have hzero : m = n := by simp at hm hn; omega
      simp [bigEndian, hzero]
  | succ width ih =>
      have hpos : 0 < 256 ^ width := Nat.pow_pos (by decide)
      have hquotM : m / 256 ^ width < 256 := Nat.div_lt_of_lt_mul (by rwa [Nat.pow_succ] at hm)
      have hquotN : n / 256 ^ width < 256 := Nat.div_lt_of_lt_mul (by rwa [Nat.pow_succ] at hn)
      -- The first byte is the quotient by `256 ^ width`, the others are the bytes of the remainder.
      rw [bigEndian_succ, bigEndian_succ, List.cons_append, List.cons_append,
        List.compare_cons_cons, compare_ofNat hquotM hquotN, ← bigEndian_mod width m, ← bigEndian_mod width n,
        ih (Nat.mod_lt m hpos) (Nat.mod_lt n hpos), ← Ordering.then_assoc,
        ← compare_div_mod]


/-! ## Text -/

/-- It is enough to look at different values in ascending order. -/
theorem compare_map_of_lt {α β : Type} (order : α → α → Ordering) [Std.OrientedCmp order]
    [Std.LawfulEqCmp order] [Ord β] [Std.OrientedOrd β] (f : α → β)
    (hlt : ∀ a b, order a b = .lt → compare (f a) (f b) = .lt) (a b : α) :
    compare (f a) (f b) = order a b := by
  cases h : order a b with
  | lt => exact hlt a b h
  | eq => rw [Std.LawfulEqCmp.eq_of_compare h]; exact Std.ReflCmp.compare_self
  | gt => exact Std.OrientedCmp.gt_of_lt (hlt b a (Std.OrientedCmp.lt_of_gt h))

/-- It is enough to look at encodings of different values in ascending order. -/
theorem ranks_of_lt {α : Type} {encode : α → Bytes} {order : α → α → Ordering}
    [Std.OrientedCmp order] [Std.LawfulEqCmp order]
    (hlt : ∀ a b r s, order a b = .lt → compare (encode a ++ r) (encode b ++ s) = .lt) :
    Ranks encode order := by
  intro a b r s
  cases h : order a b with
  | lt => rw [hlt a b r s h, Ordering.lt_then]
  | eq =>
      rw [Std.LawfulEqCmp.eq_of_compare h, Ordering.eq_then]
      induction encode b with
      | nil => rfl
      | cons x rest ih =>
          rw [List.cons_append, List.cons_append, List.compare_cons_cons, compare_toNat]
          simpa using ih
  | gt =>
      have hswap : order b a = .lt := Std.OrientedCmp.lt_of_gt h
      rw [Std.OrientedCmp.gt_of_lt (hlt b a s r hswap), Ordering.gt_then]

theorem compare_cons_of_lt {a b : UInt8} (h : compare a b = .lt) (r s : Bytes) :
    compare (a :: r) (b :: s) = .lt := by
  rw [List.compare_cons_cons, h, Ordering.lt_then]

theorem compare_cons_ofNat_of_lt {m n : Nat} (h : m < n) (hn : n < 256) (r s : Bytes) :
    compare (UInt8.ofNat m :: r) (UInt8.ofNat n :: s) = .lt := by
  apply compare_cons_of_lt
  rw [compare_ofNat (by omega) hn, Nat.compare_eq_lt.mpr h]

/-- A byte that holds some bits above a mark compares like these bits. -/
theorem compare_markedByte {mark m n : Nat} (hm : m + mark < 256) (hn : n + mark < 256)
    (r s : Bytes) :
    compare (UInt8.ofNat (m + mark) :: r) (UInt8.ofNat (n + mark) :: s)
      = (compare m n).then (compare r s) := by
  rw [List.compare_cons_cons, compare_ofNat hm hn, compare_add_right]

theorem compare_char (c d : Char) : compare c d = compare c.toNat d.toNat := by
  show compareOfLessAndEq c d = compareOfLessAndEq c.toNat d.toNat
  simp only [compareOfLessAndEq, Char.lt_def, UInt32.lt_iff_toNat_lt, Char.toNat, Char.ext_iff,
    UInt32.toNat_inj]

/-- A character takes one to four bytes. The first holds its highest bits above a mark that grows
with the number of bytes, each later one six bits. -/
theorem utf8EncodeChar_cases (c : Char) :
    (c.toNat < 0x80 ∧ String.utf8EncodeChar c = [UInt8.ofNat c.toNat]) ∨
    (0x80 ≤ c.toNat ∧ c.toNat < 0x800 ∧ String.utf8EncodeChar c
      = [UInt8.ofNat (c.toNat / 64 + 192), UInt8.ofNat (c.toNat % 64 + 128)]) ∨
    (0x800 ≤ c.toNat ∧ c.toNat < 0x10000 ∧ String.utf8EncodeChar c
      = [UInt8.ofNat (c.toNat / 64 / 64 + 224), UInt8.ofNat (c.toNat / 64 % 64 + 128),
        UInt8.ofNat (c.toNat % 64 + 128)]) ∨
    (0x10000 ≤ c.toNat ∧ c.toNat < 0x110000 ∧ String.utf8EncodeChar c
      = [UInt8.ofNat (c.toNat / 64 / 64 / 64 + 240), UInt8.ofNat (c.toNat / 64 / 64 % 64 + 128),
        UInt8.ofNat (c.toNat / 64 % 64 + 128), UInt8.ofNat (c.toNat % 64 + 128)]) := by
  have hbound : c.toNat < 0x110000 := by
    rcases c.valid with h | h
    · exact Nat.lt_trans h (by decide)
    · exact h.2
  have hvalue : c.val.toNat = c.toNat := rfl
  simp only [String.utf8EncodeChar, hvalue, Nat.div_div_eq_div_mul]
  by_cases h1 : c.toNat ≤ 0x7f
  · exact .inl ⟨by omega, if_pos h1⟩
  · by_cases h2 : c.toNat ≤ 0x7ff
    · rw [if_neg h1, if_pos h2, Nat.mod_eq_of_lt (a := c.toNat / 64) (by omega)]
      exact .inr (.inl ⟨by omega, by omega, rfl⟩)
    · by_cases h3 : c.toNat ≤ 0xffff
      · rw [if_neg h1, if_neg h2, if_pos h3, Nat.mod_eq_of_lt (a := c.toNat / 4096) (by omega)]
        exact .inr (.inr (.inl ⟨by omega, by omega, rfl⟩))
      · rw [if_neg h1, if_neg h2, if_neg h3, Nat.mod_eq_of_lt (a := c.toNat / 262144) (by omega)]
        exact .inr (.inr (.inr ⟨by omega, hbound, rfl⟩))

/-- Characters in UTF-8 compare like their code points: more bytes mean a greater first byte, and
bytes of one number go from the highest bits to the lowest. -/
theorem ranks_utf8EncodeChar : Ranks String.utf8EncodeChar compare := by
  refine ranks_of_lt fun c d r s hlt => ?_
  rw [compare_char, Nat.compare_eq_lt] at hlt
  have hlead : (compare c.toNat d.toNat).then (compare r s) = .lt := by
    rw [Nat.compare_eq_lt.mpr hlt, Ordering.lt_then]
  -- With different numbers of bytes the first bytes decide. With the same number, the bytes are the
  -- digits of the code points in base 64.
  rcases utf8EncodeChar_cases c with ⟨hc, ec⟩ | ⟨hc, hc', ec⟩ | ⟨hc, hc', ec⟩ | ⟨hc, hc', ec⟩
  · rcases utf8EncodeChar_cases d with ⟨hd, ed⟩ | ⟨hd, hd', ed⟩ | ⟨hd, hd', ed⟩ | ⟨hd, hd', ed⟩ <;>
      rw [ec, ed] <;>
      exact compare_cons_ofNat_of_lt (by omega) (by omega) _ _
  · rcases utf8EncodeChar_cases d with ⟨hd, ed⟩ | ⟨hd, hd', ed⟩ | ⟨hd, hd', ed⟩ | ⟨hd, hd', ed⟩
    · omega
    · simp only [ec, ed, List.cons_append, List.nil_append]
      rw [compare_markedByte (by omega) (by omega), compare_markedByte (by omega) (by omega),
        ← Ordering.then_assoc, ← compare_div_mod]
      exact hlead
    · rw [ec, ed]
      exact compare_cons_ofNat_of_lt (by omega) (by omega) _ _
    · rw [ec, ed]
      exact compare_cons_ofNat_of_lt (by omega) (by omega) _ _
  · rcases utf8EncodeChar_cases d with ⟨hd, ed⟩ | ⟨hd, hd', ed⟩ | ⟨hd, hd', ed⟩ | ⟨hd, hd', ed⟩
    · omega
    · omega
    · simp only [ec, ed, List.cons_append, List.nil_append]
      rw [compare_markedByte (by omega) (by omega), compare_markedByte (by omega) (by omega),
        compare_markedByte (by omega) (by omega), ← Ordering.then_assoc, ← compare_div_mod,
        ← Ordering.then_assoc, ← compare_div_mod]
      exact hlead
    · rw [ec, ed]
      exact compare_cons_ofNat_of_lt (by omega) (by omega) _ _
  · rcases utf8EncodeChar_cases d with ⟨hd, ed⟩ | ⟨hd, hd', ed⟩ | ⟨hd, hd', ed⟩ | ⟨hd, hd', ed⟩
    · omega
    · omega
    · omega
    · simp only [ec, ed, List.cons_append, List.nil_append]
      rw [compare_markedByte (by omega) (by omega), compare_markedByte (by omega) (by omega),
        compare_markedByte (by omega) (by omega), compare_markedByte (by omega) (by omega),
        ← Ordering.then_assoc, ← compare_div_mod, ← Ordering.then_assoc, ← compare_div_mod,
        ← Ordering.then_assoc, ← compare_div_mod]
      exact hlead

theorem ofText_eq_flatMap (s : String) : ofText s = s.toList.flatMap String.utf8EncodeChar := by
  conv => lhs; rw [← String.ofList_toList (s := s)]
  rw [ofText, String.toByteArray_ofList]
  exact List.toList_data_toByteArray

theorem compare_flatMap_utf8 (cs ds : List Char) :
    compare (cs.flatMap String.utf8EncodeChar) (ds.flatMap String.utf8EncodeChar)
      = compare cs ds := by
  have hnil (c : Char) (rest : Bytes) :
      ∃ b more, String.utf8EncodeChar c ++ rest = b :: more := by
    cases h : String.utf8EncodeChar c with
    | nil => exact absurd h String.utf8EncodeChar_ne_nil
    | cons b more => exact ⟨b, more ++ rest, rfl⟩
  induction cs generalizing ds with
  | nil =>
      cases ds with
      | nil => rfl
      | cons d ds =>
          obtain ⟨b, more, h⟩ := hnil d (ds.flatMap String.utf8EncodeChar)
          rw [List.flatMap_cons, h, List.flatMap_nil, List.compare_nil_cons,
            List.compare_nil_cons]
  | cons c cs ih =>
      cases ds with
      | nil =>
          obtain ⟨b, more, h⟩ := hnil c (cs.flatMap String.utf8EncodeChar)
          rw [List.flatMap_cons, h, List.flatMap_nil, List.compare_cons_nil,
            List.compare_cons_nil]
      | cons d ds =>
          rw [List.flatMap_cons, List.flatMap_cons, ranks_utf8EncodeChar, ih,
            List.compare_cons_cons]

theorem compare_of_list_lt {cs ds : List Char} (h : cs < ds) : compare cs ds = .lt := by
  induction cs generalizing ds with
  | nil =>
      cases ds with
      | nil => exact absurd h (List.lt_irrefl [])
      | cons d ds => rfl
  | cons c cs ih =>
      cases ds with
      | nil => exact absurd h (by simp)
      | cons d ds =>
          rw [List.compare_cons_cons]
          rcases List.cons_lt_cons_iff.mp h with hlt | ⟨rfl, hrest⟩
          · rw [show compare c d = .lt from compareOfLessAndEq_eq_lt.mpr hlt, Ordering.lt_then]
          · simp [ih hrest]

theorem compare_toList (s t : String) : compare s.toList t.toList = compare s t :=
  compare_map_of_lt compare String.toList
    (fun a b (h : compareOfLessAndEq a b = .lt) =>
      compare_of_list_lt (String.lt_iff.mp (compareOfLessAndEq_eq_lt.mp h))) s t

/-- Texts in UTF-8 compare like the texts, code point by code point. -/
theorem compare_ofText (s t : String) : compare (ofText s) (ofText t) = compare s t := by
  rw [ofText_eq_flatMap, ofText_eq_flatMap, compare_flatMap_utf8, compare_toList]

/-! ## Escaped byte strings -/

theorem terminate_cons (b : UInt8) (rest : Bytes) :
    KeyPart.terminate (b :: rest)
      = if b = 0 then 0 :: 0xFF :: KeyPart.terminate rest else b :: KeyPart.terminate rest := by
  rw [KeyPart.terminate, KeyPart.escapeZeros]
  split <;> rfl

theorem compare_zero_of_ne {b : UInt8} (h : b ≠ 0) : compare 0 b = .lt := by
  rw [compare_toNat, Nat.compare_eq_lt]
  exact Nat.pos_of_ne_zero fun hzero => h (UInt8.toNat_inj.mp hzero)

/-- Escaped and terminated byte strings compare like the byte strings: the end of one is smaller
than every continuation of the other, an escaped zero included. -/
theorem ranks_terminate : Ranks KeyPart.terminate compare := by
  refine ranks_of_lt fun a b r s hlt => ?_
  induction a generalizing b with
  | nil =>
      cases b with
      | nil => simp at hlt
      | cons y b =>
          rw [terminate_cons]
          split
          · rfl
          next hy => exact compare_cons_of_lt (compare_zero_of_ne hy) _ _
  | cons x a ih =>
      cases b with
      -- The first list cannot be the longer one.
      | nil => simp [List.compare_cons_nil] at hlt
      | cons y b =>
          rw [List.compare_cons_cons, Ordering.then_eq_lt] at hlt
          rw [terminate_cons, terminate_cons]
          rcases hlt with hhead | ⟨hhead, hrest⟩
          -- A zero is escaped, but then it still comes before everything that is not zero.
          · have hy : y ≠ 0 := by
              rintro rfl
              rw [compare_toNat, Nat.compare_eq_lt] at hhead
              exact Nat.not_lt_zero _ hhead
            rw [if_neg hy]
            split
            · exact compare_cons_of_lt (compare_zero_of_ne hy) _ _
            · exact compare_cons_of_lt hhead _ _
          · obtain rfl : x = y := Std.LawfulEqCmp.eq_of_compare hhead
            split
            · exact ih b hrest
            · simpa [List.compare_cons_cons] using ih b hrest

end ViewIndex.Bytes
