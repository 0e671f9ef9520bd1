import ViewIndex.Proofs.Feed.Position
import ViewIndex.Proofs.Lists
import ViewIndex.Storage.Record

/-!
# Reading records back

Whatever is written in the binary form is read back as the same value, and reading takes no byte
of what follows. A number has to fit its width. Lengths are written as numbers too, but they fit
eight bytes if the whole does.
-/

namespace ViewIndex

namespace Bytes

@[simp]
theorem length_littleEndian (width n : Nat) : (littleEndian width n).length = width := by
  induction width generalizing n with
  | zero => rfl
  | succ width ih => simp [littleEndian, ih]

theorem ofLittleEndian_littleEndian {width n : Nat} (h : n < 256 ^ width) :
    ofLittleEndian (littleEndian width n) = n := by
  induction width generalizing n with
  | zero =>
      rw [Nat.pow_zero, Nat.lt_one_iff] at h
      exact h.symm
  | succ width ih =>
      rw [Nat.pow_succ, Nat.mul_comm] at h
      have hrest := ih (Nat.div_lt_of_lt_mul h)
      simp only [littleEndian, ofLittleEndian, hrest, UInt8.toNat_ofNat']
      exact Nat.mod_add_div n 256

theorem split?_append (a b : Bytes) : split? a.length (a ++ b) = some (a, b) := by
  simp [split?]

theorem toText?_ofText (s : String) : toText? (ofText s) = some s := by
  have hvalid : s.toByteArray.IsValidUTF8 := s.isValidUTF8
  simp [toText?, ofText, String.fromUTF8?, String.fromUTF8, hvalid]

end Bytes

/-- Every partition fits four bytes, and every number eight. -/
def Position.Fits (position : Position) : Prop :=
  ∀ item ∈ position.toList, item.1 < 2 ^ 32 ∧ item.2 < 2 ^ 64

theorem Position.fits_empty : Position.Fits ∅ := by
  intro item hitem
  rw [Std.ExtTreeMap.mem_toList_iff_getElem?_eq_some] at hitem
  simp at hitem

theorem Position.fits_upTo {partitions : Nat} {number : Nat → Nat}
    (hpartitions : partitions ≤ 2 ^ 32) (hnumber : ∀ p, number p < 2 ^ 64) :
    Position.Fits (.upTo partitions number) := by
  intro item hitem
  obtain ⟨hlt, heq⟩ := Position.mem_toList_upTo.mp hitem
  exact ⟨Nat.lt_of_lt_of_le hlt hpartitions, heq ▸ hnumber item.1⟩

theorem Position.Precedes.fits {a b : Position} (h : a.Precedes b) (hfits : b.Fits) : a.Fits := by
  intro item hitem
  obtain ⟨hmem, hseq⟩ := Position.seq_of_mem_toList hitem
  obtain ⟨seq, hlater⟩ := Option.isSome_iff_exists.mp
    (Std.ExtTreeMap.mem_iff_isSome_getElem?.mp (h.mem _ hmem))
  have hle := h.seq_le item.1
  rw [hseq, Position.seq_eq b, hlater, Option.getD_some] at hle
  have hitem := Std.ExtTreeMap.mem_toList_iff_getElem?_eq_some.mpr hlater
  obtain ⟨hpartition, hlt⟩ := hfits (item.1, seq) hitem
  exact ⟨hpartition, Nat.lt_of_le_of_lt hle hlt⟩

theorem Position.ofList_toList (position : Position) :
    Std.ExtTreeMap.ofList position.toList = position := by
  apply Std.ExtTreeMap.ext_getElem?
  intro p
  cases hget : position[p]? with
  | none =>
      apply Std.ExtTreeMap.getElem?_ofList_of_contains_eq_false
      have hp : p ∉ position := by
        rw [Std.ExtTreeMap.mem_iff_isSome_getElem?, hget]
        exact Bool.false_ne_true
      simpa using hp
  | some seq =>
      apply Std.ExtTreeMap.getElem?_ofList_of_mem (Std.ReflOrd.compare_self (a := p))
      · exact Std.ExtTreeMap.distinct_keys_toList
      · exact Std.ExtTreeMap.mem_toList_iff_getElem?_eq_some.mpr hget

namespace Storage.Binary

/-- A decoder takes exactly these bytes for the value, whatever follows them. -/
def Reads {α : Type} (decoder : Decoder α) (bytes : Bytes) (value : α) : Prop :=
  ∀ rest, decoder (bytes ++ rest) = some (value, rest)

section Reads

variable {α β : Type} {decoder : Decoder α} {bytes more : Bytes} {value : α}

theorem reads_pure (value : α) : Reads (pure value) [] value := fun _ => rfl

theorem Reads.bind {next : α → Decoder β} {later : β} (h : Reads decoder bytes value)
    (hnext : Reads (next value) more later) : Reads (decoder >>= next) (bytes ++ more) later := by
  intro rest
  rw [List.append_assoc]
  change (decoder (bytes ++ (more ++ rest))).bind (fun taken => next taken.1 taken.2) = _
  rw [h]
  exact hnext rest

/-- What follows a decoder may only turn its value into another. -/
theorem Reads.map (h : Reads decoder bytes value) (f : α → β) :
    Reads (do return f (← decoder)) bytes (f value) := by
  have hmap : Reads (do return f (← decoder)) (bytes ++ []) (f value) := h.bind (reads_pure _)
  rwa [List.append_nil] at hmap

theorem Reads.map₂ {γ : Type} {second : Decoder β} {other : β} (h : Reads decoder bytes value)
    (hsecond : Reads second more other) (f : α → β → γ) :
    Reads (do
      let a ← decoder
      let b ← second
      return f a b) (bytes ++ more) (f value other) :=
  h.bind (hsecond.map (f value))

theorem Reads.run? (h : Reads decoder bytes value) (rest : Bytes) :
    Binary.run? decoder (bytes ++ rest) = some value := by
  simp [Binary.run?, h rest]

theorem reads_take (bytes : Bytes) : Reads (take bytes.length) bytes bytes :=
  Bytes.split?_append bytes

theorem reads_nat {width n : Nat} (h : n < 256 ^ width) :
    Reads (decodeNat width) (encodeNat width n) n := by
  have htake := (reads_take (encodeNat width n)).map Bytes.ofLittleEndian
  rw [encodeNat, Bytes.length_littleEndian, Bytes.ofLittleEndian_littleEndian h] at htake
  exact htake

theorem reads_four {n : Nat} (h : n < 2 ^ 32) : Reads (decodeNat 4) (encodeNat 4 n) n :=
  reads_nat (by simpa using h)

theorem reads_eight {n : Nat} (h : n < 2 ^ 64) : Reads (decodeNat 8) (encodeNat 8 n) n :=
  reads_nat (by simpa using h)

theorem reads_bytes (h : bytes.length < 2 ^ 64) : Reads decodeBytes (encodeBytes bytes) bytes :=
  (reads_eight h).bind (reads_take bytes)

theorem reads_text {s : String} (h : (Bytes.ofText s).length < 2 ^ 64) :
    Reads decodeText (encodeText s) s := by
  have hbytes : Reads decodeText (encodeBytes (Bytes.ofText s) ++ []) s := by
    apply (reads_bytes h).bind
    intro rest
    simp [Bytes.toText?_ofText, liftM, monadLift, MonadLift.monadLift, StateT.lift]
  rwa [List.append_nil] at hbytes

/-- Every item is read back, one after the other. -/
theorem reads_times {item : Decoder α} {encode : α → Bytes} {items : List α}
    (h : ∀ a ∈ items, Reads item (encode a) a) :
    Reads (times item items.length) (items.flatMap encode) items := by
  induction items with
  | nil => exact reads_pure []
  | cons first rest ih =>
      have hrest := ih fun a ha => h a (List.mem_cons_of_mem _ ha)
      exact (h first List.mem_cons_self).bind (hrest.map (first :: ·))

/-- A list is read back if its items are and none of them is written as nothing. -/
theorem reads_list {item : Decoder α} {encode : α → Bytes} {items : List α}
    (hsize : (encodeList encode items).length < 2 ^ 64)
    (hpos : ∀ a ∈ items, 0 < (encode a).length)
    (h : ∀ a ∈ items, (encode a).length < 2 ^ 64 → Reads item (encode a) a) :
    Reads (decodeList item) (encodeList encode items) items := by
  rw [encodeList, List.length_append] at hsize
  -- The number of items fits its eight bytes, because the items take at least that many.
  have hcard := card_le_flatMap hpos
  refine (reads_eight ?_).bind (reads_times fun a ha => h a ha ?_)
  · omega
  · have hle := length_le_flatMap encode ha
    omega

end Reads

/-- What begins with a number is not written as nothing. -/
theorem length_encodeNat_pos (width n : Nat) (more : Bytes) :
    0 < (encodeNat (width + 1) n ++ more).length := by
  simp [encodeNat]

theorem length_encodeBytes_pos (bytes more : Bytes) : 0 < (encodeBytes bytes ++ more).length := by
  rw [encodeBytes, List.append_assoc]
  exact length_encodeNat_pos _ _ _

theorem reads_seq {item : Nat × Nat} (h : item.1 < 2 ^ 32 ∧ item.2 < 2 ^ 64) :
    Reads decodeSeq (encodeSeq item) item := by
  unfold decodeSeq encodeSeq
  exact (reads_four h.1).map₂ (reads_eight h.2) Prod.mk

theorem reads_position {position : Position} (hfits : position.Fits)
    (hsize : (encodePosition position).length < 2 ^ 64) :
    Reads decodePosition (encodePosition position) position := by
  unfold encodePosition at hsize
  have hlist := reads_list hsize (fun _ _ => length_encodeNat_pos _ _ _) fun item hitem _ =>
    reads_seq (hfits item hitem)
  have hposition := hlist.map fun seqs => (.ofList seqs : Position)
  rw [Position.ofList_toList] at hposition
  unfold decodePosition encodePosition
  exact hposition

theorem reads_entry {entry : EncodedKey × String} (hsize : (encodeEntry entry).length < 2 ^ 64) :
    Reads decodeEntry (encodeEntry entry) entry := by
  simp only [encodeEntry, encodeText, encodeBytes, List.length_append] at hsize
  have hkey : Reads decodeBytes _ entry.1.bytes := reads_bytes (by omega)
  have htext : Reads decodeText _ entry.2 := reads_text (by omega)
  have hentry := hkey.map₂ htext fun key text => (EncodedKey.mk key, text)
  unfold decodeEntry encodeEntry
  exact hentry

theorem reads_doc {doc : StoredDoc} (hsize : (encodeDoc doc).length < 2 ^ 64) :
    Reads decodeDoc (encodeDoc doc) doc := by
  have hentries : Reads (decodeList decodeEntry) (encodeList encodeEntry doc.entries)
      doc.entries := by
    apply reads_list
    · rw [encodeDoc, List.length_append] at hsize
      omega
    · intro entry _
      exact length_encodeBytes_pos _ _
    · intro entry _
      exact reads_entry
  simp only [encodeDoc, encodeText, encodeBytes, List.length_append] at hsize
  have hid : Reads decodeText _ doc.docId := reads_text (by omega)
  unfold decodeDoc encodeDoc
  exact hid.map₂ hentries StoredDoc.mk

theorem reads_docs {docs : List StoredDoc} (hsize : (encodeList encodeDoc docs).length < 2 ^ 64) :
    Reads (decodeList decodeDoc) (encodeList encodeDoc docs) docs :=
  reads_list hsize (fun _ _ => length_encodeBytes_pos _ _) fun _ _ => reads_doc

theorem reads_batch {batch : Batch} (hfits : batch.position.Fits)
    (hsize : (encodeBatch batch).length < 2 ^ 64) :
    Reads decodeBatch (encodeBatch batch) batch := by
  rw [encodeBatch, List.length_append] at hsize
  have hdocs : Reads (decodeList decodeDoc) _ batch.docs := reads_docs (by omega)
  unfold decodeBatch encodeBatch
  exact (reads_position hfits (by omega)).map₂ hdocs Batch.mk

theorem encodeImage_eq (image : Image) : encodeImage image =
    encodeNat 8 image.signature.toNat ++ (encodeNat 8 image.feedEpoch.toNat ++
      (encodeNat 8 image.sealId ++ (encodePosition image.position ++
        encodeList encodeDoc image.docs))) := by
  simp [encodeImage, imagePieces, encodeList, List.flatMap_def]

theorem reads_word (word : UInt64) : Reads (decodeNat 8) (encodeNat 8 word.toNat) word.toNat :=
  reads_eight word.toNat_lt

theorem reads_image {image : Image} (hfits : image.position.Fits) (hseal : image.sealId < 2 ^ 64)
    (hsize : (encodeImage image).length < 2 ^ 64) :
    Reads decodeImage (encodeImage image) image := by
  rw [encodeImage_eq] at hsize ⊢
  simp only [List.length_append] at hsize
  have hdocs : Reads (decodeList decodeDoc) _ image.docs := reads_docs (by omega)
  have hbody := (reads_position hfits (by omega)).map₂ hdocs
    (Image.mk image.signature image.feedEpoch image.sealId)
  unfold decodeImage
  refine (reads_word _).bind ((reads_word _).bind ((reads_eight hseal).bind ?_))
  rw [UInt64.ofNat_toNat, UInt64.ofNat_toNat]
  exact hbody

end Storage.Binary

end ViewIndex
