import ViewIndex.Proofs.Storage.Operations

/-!
# Changed bytes in logs

A frame holds the length of its record, the sum of the record, and the record. If one byte of the
sum or of the record is changed, the two do not agree any more, and reading ends there. So of a log
with such a change the batches before that frame are read, and the record counts as cut off.
-/

namespace ViewIndex.Storage.Log

variable {before behind : List Batch} {batch : Batch} {i : Nat} {byte : UInt8}

/-! ## Frames -/

/-- A record that does not agree with the sum before it is not read. -/
theorem readFrame_of_sum_ne {sum record : Bytes} (hsum : sum.length = 4)
    (hlength : record.length < 2 ^ 32)
    (hne : (recordSum record).toNat ≠ Bytes.ofLittleEndian sum) (rest : Bytes) :
    readFrame (Bytes.littleEndian 4 record.length ++ sum ++ (record ++ rest)) = some none := by
  have hlt := Bytes.ofLittleEndian_lt sum
  have hbytes := Bytes.littleEndian_ofLittleEndian sum
  rw [hsum] at hlt hbytes
  rw [← hbytes, readFrame_header hlength hlt, Bytes.split?_append]
  simp [guard, hne]

/-- A frame with a changed byte behind the length still has its form, but sum and record do not
agree. -/
theorem exists_frame_set (hfour : 4 ≤ i) (hi : i < (frame batch).length)
    (hne : (frame batch)[i] ≠ byte) :
    ∃ sum record, sum.length = 4 ∧ record.length = (Binary.encodeBatch batch).length ∧
      (recordSum record).toNat ≠ Bytes.ofLittleEndian sum ∧
      (frame batch).set i byte = Bytes.littleEndian 4 record.length ++ sum ++ record := by
  let record := Binary.encodeBatch batch
  let length := Bytes.littleEndian 4 record.length
  let sum := Bytes.littleEndian 4 (recordSum record).toNat
  have hframe : frame batch = length ++ (sum ++ record) := List.append_assoc _ _ _
  have hlength : length.length = 4 := Bytes.length_littleEndian 4 _
  have hsum : sum.length = 4 := Bytes.length_littleEndian 4 _
  have hagree : Bytes.ofLittleEndian sum = (recordSum record).toNat :=
    Bytes.ofLittleEndian_littleEndian (recordSum record).toNat_lt
  simp only [hframe] at hi hne
  rw [hframe, List.set_append_right _ _ (hlength ▸ hfour), hlength]
  rw [List.getElem_append_right (hlength ▸ hfour)] at hne
  simp only [hlength] at hne
  rcases Nat.lt_or_ge (i - 4) sum.length with hhead | hbody
  · -- The changed sum denotes another number.
    rw [List.getElem_append_left hhead] at hne
    refine ⟨sum.set (i - 4) byte, record, by simpa using hsum, rfl, fun heq => ?_, ?_⟩
    · rw [← hagree] at heq
      exact set_ne_self hhead hne (Bytes.ofLittleEndian_inj (by simp) heq.symm)
    · rw [List.set_append_left _ _ hhead, List.append_assoc]
  · -- The changed record has another sum.
    rw [List.getElem_append_right hbody] at hne
    have hlt : i - 4 - sum.length < record.length := by
      rw [List.length_append, List.length_append] at hi
      omega
    refine ⟨sum, record.set (i - 4 - sum.length) byte, hsum, List.length_set, fun heq => ?_, ?_⟩
    · rw [hagree] at heq
      exact recordSum_set_ne hlt hne (UInt32.toNat_inj.mp heq)
    · rw [List.set_append_right _ _ hbody, List.length_set, List.append_assoc]

/-! ## Files -/

theorem fileOf_set (hi : i < (frame batch).length) :
    (fileOf (before ++ batch :: behind)).set ((fileOf before).length + i) byte
      = fileOf before ++ ((frame batch).set i byte ++ behind.flatMap frame) := by
  have hfile : fileOf (before ++ batch :: behind)
      = fileOf before ++ (frame batch ++ behind.flatMap frame) := by
    simp [fileOf]
  rw [hfile, List.set_append_right _ _ (Nat.le_add_right _ _), Nat.add_sub_cancel_left,
    List.set_append_left _ _ hi]

/-- A changed byte behind the length of a frame ends the reading of the file at that frame. -/
theorem readFile_set (h : ∀ other ∈ before ++ batch :: behind, Framed other) (hfour : 4 ≤ i)
    (hi : i < (frame batch).length) (hne : (frame batch)[i] ≠ byte) :
    readFile ((fileOf (before ++ batch :: behind)).set ((fileOf before).length + i) byte)
      = ⟨before, 1⟩ := by
  have hbefore : ∀ other ∈ before, Framed other := fun other hother =>
    h other (List.mem_append_left _ hother)
  have hbatch : Framed batch := h batch (by simp)
  obtain ⟨sum, record, hsum, hlength, hdiffer, hset⟩ := exists_frame_set hfour hi hne
  have hrest (fuel : Nat) : readFrames (fuel + 1)
      ((frame batch).set i byte ++ behind.flatMap frame) = ⟨[], 1⟩ := by
    rw [readFrames, hset, List.append_assoc,
      readFrame_of_sum_ne hsum (hlength ▸ hbatch.size) hdiffer]
  rw [fileOf_set hi, readFile_append hbefore hrest, List.append_nil]

/-! ## Logs that were appended to -/

/-- The batches that an append writes: their records fit a frame. -/
def fitting (batches : List Batch) : List Batch :=
  batches.filter fun batch => (Binary.encodeBatch batch).length < 2 ^ 32

theorem append_of_not_fits {log : Log} (h : ¬(Binary.encodeBatch batch).length < 2 ^ 32) :
    log.append batch = log := by
  have hrecord : checkRecord batch = .error (.recordTooLarge (Binary.encodeBatch batch).length) :=
    if_neg h
  rw [append, appendEffects, hrecord]
  rfl

/-- Appending one batch after the other adds those that fit. -/
theorem Open.foldl_append {log : Log} {floor : Nat} {image : Option Image}
    {segments : List (Nat × List Batch)} {batches : List Batch}
    (h : log.Open floor image segments batches) {more : List Batch}
    (hfits : ∀ batch ∈ more, batch.position.Fits) :
    (more.foldl Log.append log).Open floor image segments (batches ++ fitting more) := by
  induction more generalizing log batches with
  | nil => simpa [fitting] using h
  | cons batch rest ih =>
      obtain ⟨hbatch, hrest⟩ := List.forall_mem_cons.mp hfits
      rw [List.foldl_cons]
      by_cases hsize : (Binary.encodeBatch batch).length < 2 ^ 32
      · have hadded : fitting (batch :: rest) = batch :: fitting rest :=
          List.filter_cons_of_pos (by simpa using hsize)
        have hnext := ih (h.append ⟨hbatch, hsize⟩) hrest
        rwa [List.append_assoc, List.singleton_append, ← hadded] at hnext
      · have hleft : fitting (batch :: rest) = fitting rest :=
          List.filter_cons_of_neg (by simpa using hsize)
        rw [append_of_not_fits hsize, hleft]
        exact ih h hrest

/-- A log that was created in an empty directory and appended to has the batches that fit, and they
are read back. If one byte of the sum or of the record in the frame of any of them is changed, those
before it are read, and one record counts as cut off. -/
theorem readFile_altered : ∃ fresh, openIn {} = .ok fresh ∧
    ∀ batches : List Batch, (∀ batch ∈ batches, batch.position.Fits) →
      let written := fitting batches
      (batches.foldl Log.append fresh).directory.content? fileName = some (fileOf written) ∧
      readFile (fileOf written) = ⟨written, 0⟩ ∧
      ∀ (k : Nat) (hk : k < written.length) (i : Nat), 4 ≤ i →
        ∀ (hi : i < (frame written[k]).length) (byte : UInt8), (frame written[k])[i] ≠ byte →
          readFile ((fileOf written).set ((fileOf (written.take k)).length + i) byte)
            = ⟨written.take k, 1⟩ := by
  obtain ⟨fresh, hfresh, hopen⟩ := open_openIn laid_empty 0
    (fun segment hsegment => by cases hsegment) (fun image himage => by cases himage)
  refine ⟨fresh, hfresh, fun batches hfits => ?_⟩
  intro written
  have happended : (batches.foldl Log.append fresh).Open 0 none [] written :=
    hopen.foldl_append hfits
  have hframed : ∀ batch ∈ written, Framed batch := happended.laid.framed_current written rfl
  refine ⟨happended.laid.current, readFile_fileOf hframed, fun k hk i hfour hi byte hne => ?_⟩
  have hwritten : written.take k ++ written[k] :: written.drop (k + 1) = written := by
    rw [← List.drop_eq_getElem_cons, List.take_append_drop]
  have hread := @readFile_set (written.take k) (written.drop (k + 1)) written[k] i byte
    (by rwa [hwritten]) hfour hi hne
  rwa [hwritten] at hread

/-- A batch with one entry that reaches up to a number. -/
def numbered (n : Nat) : Batch := ⟨.upTo 1 fun _ => n, [⟨"a", [(⟨[0x10]⟩, "0")]⟩]⟩

theorem fits_numbered {n : Nat} (h : n < 2 ^ 64) : (numbered n).position.Fits :=
  Position.fits_upTo (by decide) fun _ => h

/-- Of two batches the first is read if the sum of the second is changed, and none if the last byte
of the first record is. -/
theorem readFile_altered_numbered :
    let batches := [numbered 1, numbered 2]
    let last := (frame (numbered 1)).length - 1
    (∀ batch ∈ batches, batch.position.Fits) ∧
      (frame (numbered 2))[4]? ≠ some 0 ∧
      readFile ((fileOf batches).set ((fileOf [numbered 1]).length + 4) 0) = ⟨[numbered 1], 1⟩ ∧
      (frame (numbered 1))[last]? ≠ some 0 ∧
      readFile ((fileOf batches).set ((fileOf []).length + last) 0) = ⟨[], 1⟩ := by
  intro batches last
  have hfits : ∀ batch ∈ batches, batch.position.Fits := by
    simp [batches, fits_numbered]
  have hfitting : fitting batches = batches := by decide +kernel
  obtain ⟨fresh, -, hfresh⟩ := readFile_altered
  obtain ⟨-, -, haltered⟩ := hfresh batches hfits
  have hfirst := haltered 0 (by decide +kernel) last (by decide +kernel) (by decide +kernel) 0
    (by decide +kernel)
  have hsecond := haltered 1 (by decide +kernel) 4 (by decide) (by decide +kernel) 0
    (by decide +kernel)
  rw [hfitting] at hfirst hsecond
  exact ⟨hfits, by decide +kernel, hsecond, by decide +kernel, hfirst⟩

end ViewIndex.Storage.Log
