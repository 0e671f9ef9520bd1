import Mathlib.Data.Option.Basic
import ViewIndex.Proofs.Storage.Directory
import ViewIndex.Proofs.Storage.Frames

/-!
# Image files

An image is written in pieces while its sum is taken, and what is loaded does not depend on where
one piece ends and the next begins. The header holds the length and the sum of what stands behind
it, so a file that was cut short or that goes on behind its image is no image, and neither is one
with a changed byte, whether it stands in the header or behind it.
-/

namespace ViewIndex

theorem Bytes.littleEndian_inj {width a b : Nat} (ha : a < 256 ^ width) (hb : b < 256 ^ width)
    (h : littleEndian width a = littleEndian width b) : a = b := by
  rw [← ofLittleEndian_littleEndian ha, h, ofLittleEndian_littleEndian hb]

namespace Storage.ImageFile

/-- A byte string behind the header that it has in a complete file. -/
def headed (body : Bytes) : Bytes :=
  header committed body.length (Checksum.ofBytes body).toNat ++ body

theorem encode_eq (image : Image) : encode image = headed (Binary.encodeImage image) := by
  rw [encode, committedHeader_eq, headed]

/-- Only with the header of its own body a file is accepted. -/
theorem exists_of_decode?_eq_some {content : Bytes} {image : Image}
    (h : decode? content = some image) : ∃ body, body.length < 2 ^ 32 ∧ content = headed body := by
  simp only [decode?, Bytes.split?, Option.bind_eq_bind, Option.bind_eq_some_iff,
    Option.guard_eq_some', Option.ite_none_right_eq_some, Option.some_inj, Prod.exists,
    Prod.mk.injEq] at h
  obtain ⟨head, body, ⟨-, rfl, rfl⟩, _, hlength, _, hheader, -⟩ := h
  refine ⟨content.drop headerSize, hlength, ?_⟩
  rw [headed, ← hheader, List.take_append_drop]

theorem length_headed (body : Bytes) : (headed body).length = headerSize + body.length := by
  rw [headed, List.length_append, length_header]

theorem header_inj {a b : Bytes} (ha : a.length < 2 ^ 32) (hb : b.length < 2 ^ 32)
    (h : header committed a.length (Checksum.ofBytes a).toNat
      = header committed b.length (Checksum.ofBytes b).toNat) :
    a.length = b.length ∧ Checksum.ofBytes a = Checksum.ofBytes b := by
  simp only [header, List.flatMap_cons, List.flatMap_nil, List.append_nil,
    List.append_cancel_left_eq] at h
  obtain ⟨hlength, hsum⟩ := List.append_inj h (by simp)
  refine ⟨Bytes.littleEndian_inj (by simpa using ha) (by simpa using hb) hlength, ?_⟩
  exact UInt32.toNat_inj.mp (Bytes.littleEndian_inj (UInt32.toNat_lt _) (UInt32.toNat_lt _) hsum)

/-- Of two files that are complete neither goes on where the other ends. -/
theorem eq_of_prefix_headed {a b : Bytes} (ha : a.length < 2 ^ 32) (hb : b.length < 2 ^ 32)
    (h : headed a <+: headed b) : a = b := by
  have hheader : header committed a.length (Checksum.ofBytes a).toNat
      = header committed b.length (Checksum.ofBytes b).toNat := by
    have htake := List.prefix_iff_eq_take.mp ((List.prefix_append _ a).trans h)
    rwa [length_header, headed, List.take_left' (length_header _ _ _)] at htake
  have hlength := (header_inj ha hb hheader).1
  have hsame : headed a = headed b :=
    h.eq_of_length (by rw [length_headed, length_headed, hlength])
  rw [headed, headed, hheader] at hsame
  exact List.append_cancel_left hsame

/-- A changed byte makes a complete file one that is not complete. -/
theorem headed_set_ne {a b : Bytes} (ha : a.length < 2 ^ 32) (hb : b.length < 2 ^ 32) {i : Nat}
    (hi : i < (headed a).length) {byte : UInt8} (hne : (headed a)[i] ≠ byte) :
    (headed a).set i byte ≠ headed b := by
  intro heq
  have hlength : a.length = b.length := by
    have hlengths := congrArg List.length heq
    rw [List.length_set, length_headed, length_headed] at hlengths
    omega
  let start := header committed a.length (Checksum.ofBytes a).toNat
  have hstart : start.length = headerSize := length_header _ _ _
  rcases Nat.lt_or_ge i start.length with hhead | hbody
  · -- The header differs, but the bytes that it is computed from are the same.
    have hget : (headed a)[i] = start[i] := List.getElem_append_left hhead
    change (start ++ a).set i byte = _ ++ b at heq
    rw [List.set_append_left _ _ hhead] at heq
    obtain ⟨hheader, rfl⟩ := List.append_inj' heq hlength
    exact set_ne_self hhead (hget ▸ hne) hheader
  · -- The sum in the header is the old one.
    have hlt : i - start.length < a.length := by
      rw [length_headed, ← hstart] at hi
      omega
    have hget : (headed a)[i] = a[i - start.length] := List.getElem_append_right hbody
    change (start ++ a).set i byte = _ ++ b at heq
    rw [List.set_append_right _ _ hbody] at heq
    obtain ⟨hheader, rfl⟩ := List.append_inj heq (by rw [hstart, length_header])
    exact Checksum.ofBytes_set_ne hlt (hget ▸ hne) (header_inj ha hb hheader).2.symm

/-! ## Writing in pieces -/

/-- The file that arises when these pieces are written one after the other. -/
def ofPieces (pieces : List Bytes) : Bytes :=
  header committed (pieces.map List.length).sum (Checksum.ofPieces pieces).toNat ++ pieces.flatten

theorem ofPieces_eq_headed (pieces : List Bytes) : ofPieces pieces = headed pieces.flatten := by
  rw [ofPieces, headed, List.length_flatten, Checksum.ofPieces_eq_ofBytes]

/-- A checksum that took in the pieces of a byte string, some of which may be empty, is where it
would be after the whole at once, and its sum is that of the words. So however an image is cut, the
same file is written, and the image is read from it. -/
theorem decode?_ofPieces :
    (∀ pieces : List Bytes,
      pieces.foldl Checksum.update {} = Checksum.update {} pieces.flatten ∧
      Checksum.ofPieces pieces = Checksum.ofBytes pieces.flatten ∧
      Checksum.ofBytes pieces.flatten
        = (Checksum.words pieces.flatten).foldl Checksum.addWord 0) ∧
    ∀ (image : Image) (pieces : List Bytes), Fitting image →
      pieces.flatten = Binary.encodeImage image →
        ofPieces pieces = encode image ∧ decode? (ofPieces pieces) = some image := by
  constructor
  · intro pieces
    exact ⟨Checksum.foldl_update_empty pieces, Checksum.ofPieces_eq_ofBytes pieces,
      Checksum.ofBytes_eq_foldl pieces.flatten⟩
  · intro image pieces hfitting hpieces
    have hfile : ofPieces pieces = encode image := by
      rw [ofPieces_eq_headed, hpieces, encode_eq]
    exact ⟨hfile, hfile ▸ decode?_encode hfitting⟩

/-- The image of a view with one document that gives one entry. -/
def single : Image :=
  ⟨42, 9, 7, .upTo 2 fun p => if p = 0 then 10 else 3,
    [⟨"a1", [(⟨[0x40, 0x51, 0x31, 0, 0]⟩, "true")]⟩]⟩

theorem fitting_single : Fitting single :=
  ⟨Position.fits_upTo (by decide) fun p => by split <;> decide, by decide, by decide +kernel⟩

/-- An image is written in an empty piece and others that end within a word. -/
theorem decode?_ofPieces_single :
    let body := Binary.encodeImage single
    let pieces := [body.take 3, [], (body.drop 3).take 7, body.drop 10]
    Checksum.ofPieces pieces = Checksum.ofBytes body ∧ ofPieces pieces = encode single ∧
      decode? (ofPieces pieces) = some single := by
  intro body pieces
  have hpieces : pieces.flatten = body := by
    simp only [pieces, List.flatten_cons, List.flatten_nil, List.append_nil, List.nil_append]
    rw [← List.drop_drop (i := 7) (j := 3), List.take_append_drop, List.take_append_drop]
  obtain ⟨hsum, hfile⟩ := decode?_ofPieces
  obtain ⟨-, hpiecewise, -⟩ := hsum pieces
  exact ⟨hpieces ▸ hpiecewise, hfile single pieces fitting_single hpieces⟩

/-! ## Loading -/

/-- What a file may hold after some damage. -/
inductive Damaged (content : Bytes) : Bytes → Prop where
  | cut {kept : Bytes} (hbegins : kept <+: content) (hne : kept ≠ content) : Damaged content kept
  | extended {longer : Bytes} (hbegins : content <+: longer) (hne : longer ≠ content) :
      Damaged content longer
  | changed {i : Nat} (hi : i < content.length) {byte : UInt8} (hne : content[i] ≠ byte) :
      Damaged content (content.set i byte)

theorem decode?_of_damaged {body damaged : Bytes} (hbody : body.length < 2 ^ 32)
    (h : Damaged (headed body) damaged) : decode? damaged = none := by
  rw [Option.eq_none_iff_forall_ne_some]
  intro image himage
  obtain ⟨other, hother, hdamaged⟩ := exists_of_decode?_eq_some himage
  cases h with
  | cut hbegins hne =>
      rw [hdamaged] at hbegins hne
      exact hne (congrArg headed (eq_of_prefix_headed hother hbody hbegins))
  | extended hbegins hne =>
      rw [hdamaged] at hbegins hne
      exact hne (congrArg headed (eq_of_prefix_headed hbody hother hbegins)).symm
  | changed hi hne => exact headed_set_ne hbody hother hi hne hdamaged

variable {directory : Directory} {image : Image}

/-- An image can be saved where no directory bears one of the two names. -/
theorem save_of_free (hfile : directory.hasFolder fileName = false)
    (htemporary : directory.hasFolder temporaryName = false) (hfits : fits image = true) :
    ∃ saved, save directory image = (.ok (), saved) ∧ saved.hasFolder fileName = false ∧
      saved.content? fileName = some (encode image) := by
  let drafted := directory.setContent temporaryName
    (header incomplete 0 0 ++ Binary.encodeImage image)
  let complete := drafted.setContent temporaryName (encode image)
  have hcomplete : complete.content? temporaryName = some (encode image) := by
    rw [Directory.content?_setContent, if_pos rfl]
  have hfolders : (complete.move temporaryName fileName).folders = directory.folders := by
    obtain ⟨file, hmoved, -⟩ := Option.map_eq_some_iff.mp hcomplete
    rw [Directory.move, hmoved]
    rfl
  refine ⟨complete.move temporaryName fileName, ?_, ?_, ?_⟩
  · have hdraft : directory.apply (draft image) = .ok drafted :=
      if_neg (Bool.eq_false_iff.mp htemporary)
    have hwrite : drafted.apply (.write temporaryName (encode image)) = .ok complete :=
      if_neg (Bool.eq_false_iff.mp htemporary)
    have hrename : complete.apply (.rename temporaryName fileName)
        = .ok (complete.move temporaryName fileName) :=
      if_neg (Bool.eq_false_iff.mp hfile)
    simp only [save, if_pos hfits, saveEffects, Directory.run, hdraft, hwrite, hrename]
  · rw [Directory.hasFolder, hfolders]
    exact hfile
  · rw [Directory.content?_move hcomplete, if_pos rfl]

/-- What is saved is loaded as it is. Once the file is damaged, there is no image. -/
theorem load_save_damaged (hfile : directory.hasFolder fileName = false)
    (htemporary : directory.hasFolder temporaryName = false) (h : Fitting image) :
    ∃ saved, save directory image = (.ok (), saved) ∧
      saved.content? fileName = some (encode image) ∧ load saved = .ok (some image) ∧
      ∀ damaged, Damaged (encode image) damaged →
        load (saved.setContent fileName damaged) = .ok none := by
  obtain ⟨saved, hsave, hfree, hcontent⟩ := save_of_free hfile htemporary h.size
  refine ⟨saved, hsave, hcontent, ?_, ?_⟩
  · rw [load_of_free hfree, hcontent, Option.bind_some, decode?_encode h]
  · intro damaged hdamaged
    have hbody : (Binary.encodeImage image).length < 2 ^ 32 := by simpa [fits] using h.size
    have hheld : (saved.setContent fileName damaged).content? fileName = some damaged := by
      rw [Directory.content?_setContent, if_pos rfl]
    have hstill : (saved.setContent fileName damaged).hasFolder fileName = false := hfree
    rw [encode_eq] at hdamaged
    rw [load_of_free hstill, hheld, Option.bind_some, decode?_of_damaged hbody hdamaged]

/-- An image is saved, and then the last byte of the file is changed. -/
theorem load_save_single : ∃ saved, save {} single = (.ok (), saved) ∧
    load saved = .ok (some single) ∧
    load (saved.setContent fileName ((encode single).set 126 0x9A)) = .ok none := by
  have hlast : 126 < (encode single).length := by decide +kernel
  have hbyte : (encode single)[126] ≠ 0x9A := by decide +kernel +revert
  have hfree (name : String) : Directory.hasFolder {} name = false := rfl
  obtain ⟨saved, hsave, -, hload, hdamaged⟩ :=
    load_save_damaged (hfree fileName) (hfree temporaryName) fitting_single
  exact ⟨saved, hsave, hload, hdamaged _ (.changed hlast hbyte)⟩

end Storage.ImageFile

end ViewIndex
