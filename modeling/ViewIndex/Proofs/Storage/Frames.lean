import ViewIndex.Proofs.Storage.Checksum
import ViewIndex.Proofs.Storage.Codec
import ViewIndex.Storage.ImageFile
import ViewIndex.Storage.Log

/-!
# Reading files back

A log file is read back as the batches that were appended to it, and an image file as its image.
Frames that were written in full do not depend on what stands behind them.
-/

namespace ViewIndex.Storage

theorem guard_eq_some {p : Prop} [Decidable p] (h : p) : (guard p : Option Unit) = some () :=
  if_pos h

/-! ## Logs -/

namespace Log

/-- A batch that its frame can hold. -/
structure Framed (batch : Batch) : Prop where
  fits : batch.position.Fits
  size : (Binary.encodeBatch batch).length < 2 ^ 32

/-- Behind the eight bytes of a frame there have to be as many as its length says, and they have to
be a record with its checksum. -/
theorem readFrame_header {length sum : Nat} (hlength : length < 2 ^ 32) (hsum : sum < 2 ^ 32)
    (bytes : Bytes) :
    readFrame (Bytes.littleEndian 4 length ++ Bytes.littleEndian 4 sum ++ bytes) = some (do
      let (record, rest) ← Bytes.split? length bytes
      guard ((recordSum record).toNat = sum)
      let batch ← Binary.run? Binary.decodeBatch record
      return (batch, rest)) := by
  have hfirst := Bytes.split?_append (Bytes.littleEndian 4 length)
    (Bytes.littleEndian 4 sum ++ bytes)
  have hsecond := Bytes.split?_append (Bytes.littleEndian 4 sum) bytes
  rw [Bytes.length_littleEndian] at hfirst hsecond
  rw [List.append_assoc, readFrame, hfirst]
  dsimp only [Option.bind_eq_bind, Option.bind_some]
  rw [hsecond]
  dsimp only [Option.bind_eq_bind, Option.bind_some]
  rw [Bytes.ofLittleEndian_littleEndian (by simpa using hlength),
    Bytes.ofLittleEndian_littleEndian (by simpa using hsum)]
  rfl

theorem readFrame_frame {batch : Batch} (h : Framed batch) (rest : Bytes) :
    readFrame (frame batch ++ rest) = some (some (batch, rest)) := by
  let record := Binary.encodeBatch batch
  have hbatch : Binary.run? Binary.decodeBatch record = some batch := by
    have hreads := (Binary.reads_batch h.fits (h.size.trans (by simp))).run? []
    rwa [List.append_nil] at hreads
  change readFrame (Bytes.littleEndian 4 record.length ++
    Bytes.littleEndian 4 (recordSum record).toNat ++ record ++ rest) = _
  rw [List.append_assoc, readFrame_header h.size (recordSum record).toNat_lt,
    Bytes.split?_append record rest]
  dsimp only [Option.bind_eq_bind, Option.bind_some]
  rw [guard_eq_some rfl, hbatch]
  rfl

/-- Whole frames are read one after the other, and then what follows them. -/
theorem readFrames_append {batches : List Batch} (h : ∀ batch ∈ batches, Framed batch)
    (fuel : Nat) (rest : Bytes) :
    readFrames (fuel + batches.length) (batches.flatMap frame ++ rest)
      = ⟨batches ++ (readFrames fuel rest).batches, (readFrames fuel rest).truncated⟩ := by
  induction batches with
  | nil => rfl
  | cons batch later ih =>
      have hlater := ih fun other hother => h other (List.mem_cons_of_mem _ hother)
      rw [List.flatMap_cons, List.append_assoc, List.length_cons, ← Nat.add_assoc, readFrames,
        readFrame_frame (h batch List.mem_cons_self)]
      simp [hlater]

theorem readFrames_nil (fuel : Nat) : readFrames fuel [] = {} := by
  cases fuel <;> rfl

/-- A log file with these batches. -/
def fileOf (batches : List Batch) : Bytes := header ++ batches.flatMap frame

theorem fileOf_append (batches : List Batch) (batch : Batch) :
    fileOf (batches ++ [batch]) = fileOf batches ++ frame batch := by
  simp [fileOf]

/-- Behind its whole frames, a file is read as far as the rest of it can be. -/
theorem readFile_append {batches : List Batch} (h : ∀ batch ∈ batches, Framed batch) {rest : Bytes}
    {tail : Contents} (hrest : ∀ fuel, readFrames (fuel + 1) rest = tail) :
    readFile (fileOf batches ++ rest) = ⟨batches ++ tail.batches, tail.truncated⟩ := by
  have hlength : batches.length + 1 ≤ (fileOf batches ++ rest).length := by
    have hpos : ∀ batch ∈ batches, 0 < (frame batch).length := by
      intro batch _
      simp [frame]
    have hcard := card_le_flatMap hpos
    have hheader : header.length = 8 := rfl
    rw [List.length_append, fileOf, List.length_append]
    omega
  -- There is more fuel than there are frames; what is left over meets what follows them.
  obtain ⟨fuel, hfuel⟩ := Nat.exists_eq_add_of_le' hlength
  have hread := readFrames_append h (fuel + 1) rest
  rw [hrest, Nat.add_assoc, Nat.add_comm 1, ← hfuel] at hread
  have hheader : header.isPrefixOf (fileOf batches ++ rest) = true := by
    rw [List.isPrefixOf_iff_prefix, fileOf, List.append_assoc]
    exact List.prefix_append _ _
  have hdrop : (fileOf batches ++ rest).drop header.length = batches.flatMap frame ++ rest := by
    rw [fileOf, List.append_assoc, List.drop_left]
  rw [readFile, if_pos hheader, hdrop]
  exact hread

theorem readFile_fileOf {batches : List Batch} (h : ∀ batch ∈ batches, Framed batch) :
    readFile (fileOf batches) = ⟨batches, 0⟩ := by
  have hread := readFile_append h (fun fuel => readFrames_nil (fuel + 1))
  rwa [List.append_nil, List.append_nil] at hread

end Log

/-! ## Images -/

namespace ImageFile

/-- An image whose parts fit their widths. -/
structure Fitting (image : Image) : Prop where
  position : image.position.Fits
  sealId : image.sealId < 2 ^ 64
  size : fits image = true

theorem length_header (state length sum : Nat) : (header state length sum).length = headerSize := by
  simp [header, headerSize]

theorem committedHeader_eq (image : Image) : committedHeader image
    = header committed (Binary.encodeImage image).length
        (Checksum.ofBytes (Binary.encodeImage image)).toNat := by
  rw [committedHeader, Checksum.ofPieces_eq_ofBytes, Binary.encodeImage]

theorem decode?_encode {image : Image} (h : Fitting image) :
    decode? (encode image) = some image := by
  have hsize : (Binary.encodeImage image).length < UInt32.size := by simpa [fits] using h.size
  have hsplit := Bytes.split?_append (committedHeader image) (Binary.encodeImage image)
  have hlength : (committedHeader image).length = headerSize := length_header _ _ _
  have hread := (Binary.reads_image h.position h.sealId (hsize.trans (by decide))).run? []
  rw [hlength, committedHeader_eq] at hsplit
  rw [List.append_nil] at hread
  rw [decode?, encode, committedHeader_eq, hsplit]
  dsimp only [Option.bind_eq_bind, Option.bind_some]
  rw [guard_eq_some hsize, Option.bind_some, guard_eq_some rfl, Option.bind_some, hread]

theorem load_of_free {directory : Directory} (h : directory.hasFolder fileName = false) :
    load directory = .ok ((directory.content? fileName).bind decode?) := by
  rw [load, h]
  rfl

end ImageFile

end ViewIndex.Storage
