import Mathlib.Algebra.GroupWithZero.Nat
import Mathlib.Logic.Function.Basic
import ViewIndex.Storage.Checksum

/-!
# Sums of changed bytes

Both checksums tell every change of a single byte: a step of a sum tells apart what it starts from
and what it takes in, so that a difference is not lost behind it. The sum of an image is that of its
words, in whatever pieces its bytes arrive.
-/

namespace ViewIndex

namespace Bytes

theorem ofLittleEndian_lt (bytes : Bytes) : ofLittleEndian bytes < 256 ^ bytes.length := by
  induction bytes with
  | nil => exact Nat.one_pos
  | cons b rest ih =>
      have hb := b.toNat_lt
      rw [ofLittleEndian, List.length_cons, Nat.pow_succ]
      omega

theorem littleEndian_ofLittleEndian (bytes : Bytes) :
    littleEndian bytes.length (ofLittleEndian bytes) = bytes := by
  induction bytes with
  | nil => rfl
  | cons b rest ih =>
      have hb := b.toNat_lt
      have hrest : (b.toNat + 256 * ofLittleEndian rest) / 256 = ofLittleEndian rest := by omega
      have hfirst : UInt8.ofNat (b.toNat + 256 * ofLittleEndian rest) = b := by
        apply UInt8.toNat_inj.mp
        rw [UInt8.toNat_ofNat']
        omega
      rw [List.length_cons, ofLittleEndian, littleEndian, hrest, ih, hfirst]

/-- Byte strings of one length denote different numbers. -/
theorem ofLittleEndian_inj {a b : Bytes} (hlength : a.length = b.length)
    (h : ofLittleEndian a = ofLittleEndian b) : a = b := by
  rw [← littleEndian_ofLittleEndian a, ← littleEndian_ofLittleEndian b, h, hlength]

end Bytes

namespace Storage

/-! ## Rotations -/

theorem toBitVec_rotateLeft (word : UInt32) {amount : UInt32} (hpos : 0 < amount)
    (hlt : amount < 32) :
    (rotateLeft word amount).toBitVec = word.toBitVec.rotateLeft amount.toNat := by
  rw [UInt32.lt_iff_toNat_lt] at hpos
  have hleft : amount.toNat % 32 = amount.toNat :=
    Nat.mod_eq_of_lt (UInt32.lt_iff_toNat_lt.mp hlt)
  have hright : (32 - amount).toNat % 32 = 32 - amount.toNat := by
    rw [UInt32.toNat_sub_of_le _ _ (UInt32.le_of_lt hlt)]
    exact Nat.mod_eq_of_lt (Nat.sub_lt (by decide) hpos)
  rw [rotateLeft, UInt32.toBitVec_or, UInt32.toBitVec_shiftLeft, UInt32.toBitVec_shiftRight,
    BitVec.rotateLeft_def, hleft]
  change word.toBitVec <<< (amount.toNat % 32) ||| word.toBitVec >>> ((32 - amount).toNat % 32) = _
  rw [hleft, hright]

/-- Every bit is found again where it was rotated to. -/
theorem getLsbD_rotateLeft_add (word : BitVec 32) {amount i : Nat} (hamount : amount < 32)
    (hi : i < 32) :
    (word.rotateLeft amount).getLsbD ((i + amount) % 32) = word.getLsbD i := by
  rw [BitVec.getLsbD_rotateLeft, Nat.mod_eq_of_lt hamount]
  -- The highest bits come in at the low end.
  rcases Nat.lt_or_ge (i + amount) 32 with hlow | hhigh
  · have hmod : (i + amount) % 32 = i + amount := Nat.mod_eq_of_lt hlow
    have hge : ¬i + amount < amount := by omega
    simp only [hmod, hge, hlow, decide_false, cond_false, decide_true, Bool.true_and,
      Nat.add_sub_cancel]
  · have hmod : (i + amount) % 32 = i + amount - 32 := by omega
    have hlt : i + amount - 32 < amount := by omega
    simp only [hmod, hlt, decide_true, cond_true]
    congr 1
    omega

theorem rotateLeft_injective {amount : UInt32} (hpos : 0 < amount) (hlt : amount < 32) :
    Function.Injective fun word => rotateLeft word amount := by
  intro a b h
  have hrotated : a.toBitVec.rotateLeft amount.toNat = b.toBitVec.rotateLeft amount.toNat := by
    rw [← toBitVec_rotateLeft a hpos hlt, ← toBitVec_rotateLeft b hpos hlt]
    exact congrArg UInt32.toBitVec h
  have hamount := UInt32.lt_iff_toNat_lt.mp hlt
  apply UInt32.toBitVec_inj.mp
  apply BitVec.eq_of_getLsbD_eq
  intro i hi
  rw [← getLsbD_rotateLeft_add a.toBitVec hamount hi, hrotated,
    getLsbD_rotateLeft_add b.toBitVec hamount hi]

/-! ## Records -/

theorem set_ne_self {α : Type} {items : List α} {i : Nat} (hi : i < items.length) {a : α}
    (hne : items[i] ≠ a) : items.set i a ≠ items := by
  intro heq
  apply hne
  have hget : (items.set i a)[i]? = some a := List.getElem?_set_self hi
  rw [heq, List.getElem?_eq_getElem hi] at hget
  exact Option.some.inj hget

theorem foldl_injective {α β : Type} {f : β → α → β} (h : ∀ a, Function.Injective fun b => f b a)
    (items : List α) : Function.Injective fun b => items.foldl f b := by
  induction items with
  | nil => exact fun _ _ heq => heq
  | cons a rest ih => exact ih.comp (h a)

/-- Where every step tells apart what it starts from and what it takes in, one changed item changes
the result. -/
theorem foldl_set_ne {α β : Type} {f : β → α → β} (hstart : ∀ a, Function.Injective fun b => f b a)
    (hitem : ∀ b, Function.Injective (f b)) {items : List α} {i : Nat} (hi : i < items.length)
    {a : α} (hne : items[i] ≠ a) (start : β) :
    (items.set i a).foldl f start ≠ items.foldl f start := by
  induction items generalizing i start with
  | nil => cases hi
  | cons first rest ih =>
      cases i with
      | zero => exact fun heq => hne (hitem start (foldl_injective hstart rest heq)).symm
      | succ i => exact ih (Nat.lt_of_succ_lt_succ hi) hne (f start first)

theorem recordSum_set_ne {record : Bytes} {i : Nat} (hi : i < record.length) {byte : UInt8}
    (hne : record[i] ≠ byte) : recordSum (record.set i byte) ≠ recordSum record := by
  have hrotate : Function.Injective fun word => rotateLeft word 3 :=
    rotateLeft_injective (by decide) (by decide)
  apply foldl_set_ne _ _ hi hne
  · intro b x y heq
    have hsum : x + b.toUInt32 = y + b.toUInt32 := hrotate heq
    simpa using hsum
  · intro sum x y heq
    have hsum : sum + x.toUInt32 = sum + y.toUInt32 := hrotate heq
    have hword : x.toUInt32 = y.toUInt32 := by simpa using hsum
    apply UInt8.toNat_inj.mp
    simpa using congrArg UInt32.toNat hword

/-! ## Words and pieces -/

namespace Checksum

/-- The words of a byte string; the last one may lack some bytes. -/
def words : Bytes → List Bytes
  | [] => []
  | a :: b :: c :: d :: rest => [a, b, c, d] :: words rest
  | short => [short]

theorem absorb_append (sum : UInt32) {word : Bytes} (h : word.length = 4) (rest : Bytes) :
    absorb sum (word ++ rest) = absorb (addWord sum word) rest := by
  match word, h with
  | [a, b, c, d], _ => rfl

theorem absorb_of_length_lt (sum : UInt32) {bytes : Bytes} (h : bytes.length < 4) :
    absorb sum bytes = ⟨sum, bytes⟩ := by
  match bytes, h with
  | [], _ => rfl
  | [_], _ => rfl
  | [_, _], _ => rfl
  | [_, _, _], _ => rfl

theorem length_lt_of_not_word {bytes : Bytes}
    (h : ∀ a b c d rest, bytes ≠ a :: b :: c :: d :: rest) : bytes.length < 4 := by
  match bytes, h with
  | [], _ => simp
  | [_], _ => simp
  | [_, _], _ => simp
  | [_, _, _], _ => simp
  | a :: b :: c :: d :: rest, h => exact (h a b c d rest rfl).elim

theorem finish_absorb (sum : UInt32) (bytes : Bytes) :
    (absorb sum bytes).finish = (words bytes).foldl addWord sum := by
  fun_induction absorb sum bytes with
  | case1 sum a b c d rest ih => exact ih
  | case2 sum pending hpending =>
      match pending, length_lt_of_not_word hpending with
      | [], _ => rfl
      | [_], _ => rfl
      | [_, _], _ => rfl
      | [_, _, _], _ => rfl

/-- The sum of a byte string is that of its words. -/
theorem ofBytes_eq_foldl (bytes : Bytes) : ofBytes bytes = (words bytes).foldl addWord 0 :=
  finish_absorb 0 bytes

theorem length_pending_absorb (sum : UInt32) (bytes : Bytes) :
    (absorb sum bytes).pending.length < 4 := by
  fun_induction absorb sum bytes with
  | case1 sum a b c d rest ih => exact ih
  | case2 sum pending hpending => exact length_lt_of_not_word hpending

/-- Bytes that are pending are taken up again when more arrive. -/
theorem absorb_absorb (sum : UInt32) (bytes more : Bytes) :
    absorb (absorb sum bytes).sum ((absorb sum bytes).pending ++ more)
      = absorb sum (bytes ++ more) := by
  fun_induction absorb sum bytes with
  | case1 sum a b c d rest ih => exact ih
  | case2 sum pending _ => rfl

/-- Whether the new bytes complete the pending word or not, going on with them is as if they had
stood behind it from the start. -/
theorem update_eq_absorb {checksum : Checksum} (h : checksum.pending.length < 4) (bytes : Bytes) :
    checksum.update bytes = absorb checksum.sum (checksum.pending ++ bytes) := by
  have hsplit (n : Nat) :
      checksum.pending ++ bytes = (checksum.pending ++ bytes.take n) ++ bytes.drop n := by
    rw [List.append_assoc, List.take_append_drop]
  have hlength (n : Nat) : (checksum.pending ++ bytes.take n).length
      = checksum.pending.length + min n bytes.length := by
    rw [List.length_append, List.length_take]
  unfold update
  split
  next hnone => rw [List.isEmpty_iff.mp hnone, List.nil_append]
  next hsome =>
    dsimp only
    split
    next hshort =>
      -- All new bytes are in the word.
      rw [hlength] at hshort
      rw [List.take_of_length_le (by omega), absorb_of_length_lt]
      rw [List.length_append]
      omega
    next hfull =>
      rw [hlength] at hfull
      rw [hsplit (4 - checksum.pending.length), absorb_append]
      rw [hlength]
      omega

theorem update_absorb (sum : UInt32) (bytes more : Bytes) :
    (absorb sum bytes).update more = absorb sum (bytes ++ more) := by
  rw [update_eq_absorb (length_pending_absorb sum bytes), absorb_absorb]

/-- After any pieces a checksum is where it would be after all their bytes at once. -/
theorem foldl_update (sum : UInt32) (bytes : Bytes) (pieces : List Bytes) :
    pieces.foldl update (absorb sum bytes) = absorb sum (bytes ++ pieces.flatten) := by
  induction pieces generalizing bytes with
  | nil => rw [List.flatten_nil, List.append_nil, List.foldl_nil]
  | cons piece rest ih => rw [List.foldl_cons, update_absorb, ih, List.flatten_cons,
      List.append_assoc]

theorem foldl_update_empty (pieces : List Bytes) :
    pieces.foldl update {} = update {} pieces.flatten :=
  foldl_update 0 [] pieces

/-- However a byte string is cut into pieces, the sum is that of the whole. -/
theorem ofPieces_eq_ofBytes (pieces : List Bytes) : ofPieces pieces = ofBytes pieces.flatten := by
  rw [ofPieces, foldl_update_empty, ofBytes]

/-! ## Images -/

theorem addWord_injective (word : Bytes) : Function.Injective fun sum => addWord sum word := by
  intro x y heq
  have hsum : x + UInt32.ofNat (Bytes.ofLittleEndian word)
      = y + UInt32.ofNat (Bytes.ofLittleEndian word) :=
    rotateLeft_injective (by decide) (by decide) heq
  simpa using hsum

/-- Words of one length give different sums. -/
theorem addWord_inj {sum : UInt32} {a b : Bytes} (hlength : a.length = b.length)
    (hword : b.length ≤ 4) (h : addWord sum a = addWord sum b) : a = b := by
  have hfits : ∀ word : Bytes, word.length ≤ 4 → Bytes.ofLittleEndian word < UInt32.size := by
    intro word hlen
    exact Nat.lt_of_lt_of_le (Bytes.ofLittleEndian_lt word) (Nat.pow_le_pow_right (by decide) hlen)
  have hsum : sum + UInt32.ofNat (Bytes.ofLittleEndian a)
      = sum + UInt32.ofNat (Bytes.ofLittleEndian b) :=
    rotateLeft_injective (by decide) (by decide) h
  have hadded : UInt32.ofNat (Bytes.ofLittleEndian a) = UInt32.ofNat (Bytes.ofLittleEndian b) := by
    simpa using hsum
  have hnumber := congrArg UInt32.toNat hadded
  rw [UInt32.toNat_ofNat_of_lt' (hfits a (hlength ▸ hword)),
    UInt32.toNat_ofNat_of_lt' (hfits b hword)] at hnumber
  exact Bytes.ofLittleEndian_inj hlength hnumber

theorem finish_absorb_of_length_lt (sum : UInt32) {bytes : Bytes} (hsome : bytes ≠ [])
    (h : bytes.length < 4) : (absorb sum bytes).finish = addWord sum bytes := by
  rw [absorb_of_length_lt sum h, finish, if_neg (by simpa using hsome)]

theorem finish_absorb_injective (bytes : Bytes) :
    Function.Injective fun sum => (absorb sum bytes).finish := by
  simp only [finish_absorb]
  exact foldl_injective addWord_injective (words bytes)

theorem finish_absorb_set_ne (sum : UInt32) {bytes : Bytes} {i : Nat} (hi : i < bytes.length)
    {byte : UInt8} (hne : bytes[i] ≠ byte) :
    (absorb sum (bytes.set i byte)).finish ≠ (absorb sum bytes).finish := by
  fun_induction absorb sum bytes generalizing i with
  | case1 sum a b c d rest ih =>
      let word := [a, b, c, d]
      change (absorb sum ((word ++ rest).set i byte)).finish ≠ _
      -- A byte of this word changes what it adds; a later one is met further on.
      rcases Nat.lt_or_ge i word.length with hfirst | hlater
      · rw [List.set_append_left _ _ hfirst, absorb_append sum (by simp [word])]
        intro heq
        have hword : word.set i byte = word :=
          addWord_inj (by simp) (by simp [word]) (finish_absorb_injective rest heq)
        have hget : (word ++ rest)[i] = word[i] := List.getElem_append_left hfirst
        exact set_ne_self hfirst (fun hbyte => hne (hget.trans hbyte)) hword
      · have hrest : i - word.length < rest.length := by
          simp only [List.length_cons] at hi
          simp only [word, List.length_cons, List.length_nil] at hlater ⊢
          omega
        have hget : (word ++ rest)[i] = rest[i - word.length] := List.getElem_append_right hlater
        rw [List.set_append_right _ _ hlater, absorb_append sum (by simp [word])]
        exact ih hrest (fun hbyte => hne (hget.trans hbyte))
  | case2 sum pending hpending =>
      have hlength := length_lt_of_not_word hpending
      have hsome : pending ≠ [] := List.ne_nil_of_length_pos (Nat.zero_lt_of_lt hi)
      have hset : pending.set i byte ≠ [] := by simpa using hsome
      rw [finish_absorb_of_length_lt sum hset (by simpa using hlength),
        ← absorb_of_length_lt sum hlength, finish_absorb_of_length_lt sum hsome hlength]
      intro heq
      exact set_ne_self hi hne (addWord_inj (by simp) (Nat.le_of_lt hlength) heq)

theorem ofBytes_set_ne {bytes : Bytes} {i : Nat} (hi : i < bytes.length) {byte : UInt8}
    (hne : bytes[i] ≠ byte) : ofBytes (bytes.set i byte) ≠ ofBytes bytes :=
  finish_absorb_set_ne 0 hi hne

end Checksum

end Storage

end ViewIndex
