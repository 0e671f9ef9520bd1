import ViewIndex.Proofs.Key.ByteOrder
import ViewIndex.Proofs.Storage.Discarding
import ViewIndex.View.Basic

/-!
# What a signature tells

The bytes that identify a view definition are four texts, each ended by a zero. They say no more and
no less than what these texts are when they are cut at every zero character. So two definitions are
told apart by name, document type, reducer name and version as long as no text but the version holds
a zero character and none that is given is empty: a missing text counts as an empty one. State that
was stored under another signature is never taken over.
-/

namespace ViewIndex

/-! ## Texts ended by zeros -/

theorem Bytes.utf8_injective {cs ds : List Char}
    (h : cs.flatMap String.utf8EncodeChar = ds.flatMap String.utf8EncodeChar) : cs = ds := by
  have hcompare := compare_flatMap_utf8 cs ds
  rw [h, Std.ReflOrd.compare_self] at hcompare
  exact Std.LawfulEqCmp.eq_of_compare hcompare.symm

theorem splitOn_injective {α : Type} [BEq α] [LawfulBEq α] {a b : List α} {sep : α}
    (h : a.splitOn sep = b.splitOn sep) : a = b := by
  have hjoin := congrArg [sep].intercalate h
  rwa [List.intercalate_splitOn, List.intercalate_splitOn] at hjoin

/-- Cutting what was ended by separators gives the pieces of all parts, and nothing at the end. -/
theorem splitOn_flatMap_concat {α : Type} [BEq α] [LawfulBEq α] (sep : α) (parts : List (List α)) :
    (parts.flatMap fun part => part ++ [sep]).splitOn sep
      = (parts.flatMap fun part => part.splitOn sep) ++ [[]] := by
  induction parts with
  | nil => rfl
  | cons part rest ih =>
      rw [List.flatMap_cons, List.append_assoc, List.singleton_append, List.flatMap_cons,
        List.append_assoc, ← ih]
      exact List.splitOnP_append_cons _ _ (beq_self_eq_true sep)

theorem splitOn_of_not_mem {α : Type} [BEq α] [LawfulBEq α] {sep : α} {part : List α}
    (h : sep ∉ part) : part.splitOn sep = [part] := by
  apply List.splitOnP_eq_singleton
  intro c hc
  rw [beq_eq_false_iff_ne]
  rintro rfl
  exact h hc

namespace View

/-- The texts that identify a definition; what is missing counts as empty. -/
def signatureParts (view : View) : List (List Char) :=
  [view.name, view.docType.getD "", (view.reducer.map Reducer.name).getD "", view.version].map
    String.toList

/-- The texts cut at every zero character. -/
def signaturePieces (view : View) : List (List Char) :=
  view.signatureParts.flatMap fun part => part.splitOn '\x00'

/-- Name, document type and name of the reducer hold no zero character, and the latter two are not
empty if they are given. -/
structure Marked (view : View) : Prop where
  name : '\x00' ∉ view.name.toList
  docType : ∀ docType, view.docType = some docType → docType ≠ "" ∧ '\x00' ∉ docType.toList
  reducer : ∀ r, view.reducer = some r → r.name ≠ "" ∧ '\x00' ∉ r.name.toList

variable {a b view : View}

theorem signatureBytes_eq (view : View) : view.signatureBytes
    = (view.signatureParts.flatMap fun part => part ++ ['\x00']).flatMap String.utf8EncodeChar := by
  rw [signatureBytes, signatureParts, List.flatMap_map, List.flatMap_assoc]
  apply List.flatMap_congr
  intro part _
  rw [List.flatMap_append, Bytes.ofText_eq_flatMap]
  rfl

/-- The bytes are the same exactly if the pieces are. -/
theorem signatureBytes_eq_iff :
    a.signatureBytes = b.signatureBytes ↔ a.signaturePieces = b.signaturePieces := by
  have hpieces (view : View) := splitOn_flatMap_concat '\x00' view.signatureParts
  rw [signatureBytes_eq, signatureBytes_eq]
  constructor
  · intro h
    have hsplit := congrArg (List.splitOn '\x00') (Bytes.utf8_injective h)
    rw [hpieces, hpieces] at hsplit
    exact List.append_cancel_right hsplit
  · intro h
    have hsplit := congrArg (· ++ [[]]) h
    rw [signaturePieces, signaturePieces] at hsplit
    rw [← hpieces, ← hpieces] at hsplit
    rw [splitOn_injective hsplit]

theorem not_mem_getD {text : Option String}
    (h : ∀ t, text = some t → t ≠ "" ∧ '\x00' ∉ t.toList) : '\x00' ∉ (text.getD "").toList := by
  cases text with
  | none => simp
  | some t => exact (h t rfl).2

theorem eq_of_getD_eq {text other : Option String} (htext : ∀ t, text = some t → t ≠ "")
    (hother : ∀ t, other = some t → t ≠ "") (h : text.getD "" = other.getD "") :
    text = other := by
  cases text with
  | none =>
      cases other with
      | none => rfl
      | some t => exact absurd h.symm (hother t rfl)
  | some s =>
      cases other with
      | none => exact absurd h (htext s rfl)
      | some t => exact congrArg some h

theorem Marked.reducerName (h : view.Marked) :
    ∀ name, view.reducer.map Reducer.name = some name → name ≠ "" ∧ '\x00' ∉ name.toList := by
  intro name hname
  obtain ⟨r, hr, rfl⟩ := Option.map_eq_some_iff.mp hname
  exact h.reducer r hr

theorem Marked.signaturePieces_eq (h : view.Marked) : view.signaturePieces
    = view.name.toList :: (view.docType.getD "").toList
      :: ((view.reducer.map Reducer.name).getD "").toList
      :: view.version.toList.splitOn '\x00' := by
  simp only [signaturePieces, signatureParts, List.map_cons, List.map_nil, List.flatMap_cons,
    List.flatMap_nil, splitOn_of_not_mem h.name, splitOn_of_not_mem (not_mem_getD h.docType),
    splitOn_of_not_mem (not_mem_getD h.reducerName), List.singleton_append, List.append_nil]

/-- Definitions that are marked are told apart by each of their texts. -/
theorem Marked.signatureBytes_eq_iff (ha : a.Marked) (hb : b.Marked) :
    a.signatureBytes = b.signatureBytes ↔ a.name = b.name ∧ a.docType = b.docType ∧
      a.reducer.map Reducer.name = b.reducer.map Reducer.name ∧ a.version = b.version := by
  rw [View.signatureBytes_eq_iff, ha.signaturePieces_eq, hb.signaturePieces_eq]
  simp only [List.cons.injEq, String.toList_inj]
  constructor
  · rintro ⟨hname, hdocType, hreducer, hversion⟩
    refine ⟨hname, ?_, ?_, String.toList_inj.mp (splitOn_injective hversion)⟩
    · exact eq_of_getD_eq (fun t ht => (ha.docType t ht).1) (fun t ht => (hb.docType t ht).1)
        hdocType
    · exact eq_of_getD_eq (fun t ht => (ha.reducerName t ht).1)
        (fun t ht => (hb.reducerName t ht).1) hreducer
  · rintro ⟨hname, hdocType, hreducer, hversion⟩
    rw [hname, hdocType, hreducer, hversion]
    exact ⟨rfl, rfl, rfl, rfl⟩

end View

/-! ## State that belongs to another definition -/

namespace Storage.Checkpoint

/-- Emptying the log and bringing nothing back; if it cannot be emptied, that is the error. -/
def discard (checkpoint : Checkpoint) : Except StorageError (Option Recovered) × Checkpoint :=
  (checkpoint.resetLog.1.map fun _ => none, checkpoint.resetLog.2)

section

variable {checkpoint later last : Checkpoint} {image : Image}
  (hload : ImageFile.load checkpoint.directory = .ok (some image))
  (hsignature : image.signature ≠ checkpoint.signature)
include hload hsignature

theorem recover_of_signature_ne (tail : Position) :
    checkpoint.recover tail = checkpoint.discard := by
  have hnone : checkpoint.usable (some image) tail = .ok none := by
    apply usable_of_not_fits
    intro stored hstored hfits
    obtain rfl := Option.some.inj hstored
    rw [fits, Bool.and_eq_true, beq_iff_eq] at hfits
    exact hsignature hfits.1
  rw [recover, hload, Except.bind, hnone]
  rfl

/-- The image stays, but it is not taken over later either. -/
theorem recover_again_of_signature_ne {tail : Position}
    (hlater : checkpoint.discard = (.ok none, later)) (hlast : later.Retried tail last) :
    (last.recover tail).1 = .ok none := by
  rw [← recover_of_signature_ne hload hsignature tail] at hlater
  have hemptied := hlast.emptied (emptied_of_recover hlater).1
  have hload' : ImageFile.load last.directory = .ok (some image) := hemptied.load_eq.trans hload
  have hsignature' : image.signature ≠ last.signature :=
    fun h => hsignature (h.trans hemptied.signature_eq)
  obtain ⟨again, hreset⟩ := hemptied.exists_resetLog
  rw [recover_of_signature_ne hload' hsignature', discard, hreset]
  rfl

end

end Storage.Checkpoint

namespace View

open Storage

/-- The bytes of two definitions are the same exactly if their texts are when they are cut at every
zero character; in definitions without such characters and without empty texts, exactly if all texts
are the same. Unless different bytes have the same hash, the stored image of a definition with other
bytes is discarded, and never taken over later. -/
theorem signature_separates (a b : View) :
    (a.signatureBytes = b.signatureBytes ↔ a.signaturePieces = b.signaturePieces) ∧
    (a.Marked → b.Marked → (a.signatureBytes = b.signatureBytes ↔ a.name = b.name ∧
      a.docType = b.docType ∧ a.reducer.map Reducer.name = b.reducer.map Reducer.name ∧
      a.version = b.version)) ∧
    ∀ (checkpoint : Checkpoint) (image : Image) (tail : Position),
      a.signatureBytes ≠ b.signatureBytes →
      (a.signature = b.signature → a.signatureBytes = b.signatureBytes) →
      checkpoint.signature = b.signature → image.signature = a.signature →
      ImageFile.load checkpoint.directory = .ok (some image) →
        checkpoint.recover tail = checkpoint.discard ∧
        ∀ later last, checkpoint.discard = (.ok none, later) → later.Retried tail last →
          (last.recover tail).1 = .ok none := by
  refine ⟨signatureBytes_eq_iff, Marked.signatureBytes_eq_iff, ?_⟩
  intro checkpoint image tail hbytes hhash hcheckpoint himage hload
  have hsignature : image.signature ≠ checkpoint.signature := by
    rw [himage, hcheckpoint]
    exact fun h => hbytes (hhash h)
  exact ⟨Checkpoint.recover_of_signature_ne hload hsignature tail,
    fun later last => Checkpoint.recover_again_of_signature_ne hload hsignature⟩

namespace Signed

def typed : View := { name := "t", docType := some "Answer", map := fun _ => .emitted [] }

/-- The same definition after its map was changed. -/
def changed : View := { typed with version := "2" }

def untyped : View := { name := "t", map := fun _ => .emitted [] }

/-- For documents whose type is empty. -/
def emptyTyped : View := { untyped with docType := some "" }

/-- Name and document type meet at a zero that belongs to the name. -/
def zeroNamed : View := { untyped with name := "t\x00" }

/-- Here it belongs to the document type. -/
def zeroTyped : View := { untyped with docType := some "\x00" }

/-- What a definition stored about one document. -/
def image (view : View) : Image :=
  ⟨view.signature, 7, 1, .upTo 1 fun _ => 1, [⟨"a", [(⟨[0x10]⟩, "1")]⟩]⟩

def directory (view : View) : Directory :=
  (({} : Directory).setContent ImageFile.fileName (ImageFile.encode (image view))).setContent
    Storage.Log.fileName Storage.Log.header

/-- The stored state of one definition is opened for another one. -/
def checkpoint (stored opened : View) : Checkpoint :=
  ⟨opened.signature, 7, .ofDirectory (directory stored) 0⟩

def tail : Position := .upTo 1 fun _ => 1

theorem marked_typed : typed.Marked where
  name := by decide
  docType docType h := by
    rw [← Option.some.inj h]
    decide
  reducer r h := by cases h

theorem marked_changed : changed.Marked := ⟨marked_typed.1, marked_typed.2, marked_typed.3⟩

theorem signature_ne : typed.signature ≠ changed.signature := by decide +kernel

end Signed

/-- What was stored before the version was changed is discarded, and does not come back. -/
theorem signature_separates_versions :
    Signed.typed.signatureBytes ≠ Signed.changed.signatureBytes ∧
    ∃ later,
      (Signed.checkpoint Signed.typed Signed.changed).recover Signed.tail = (.ok none, later) ∧
      (later.recover Signed.tail).1 = .ok none := by
  obtain ⟨-, hmarked, hdiscard⟩ := signature_separates Signed.typed Signed.changed
  have hbytes : Signed.typed.signatureBytes ≠ Signed.changed.signatureBytes := by
    rw [ne_eq, hmarked Signed.marked_typed Signed.marked_changed]
    decide
  obtain ⟨hrecover, hagain⟩ := hdiscard (Signed.checkpoint Signed.typed Signed.changed)
    (Signed.image Signed.typed) Signed.tail hbytes (fun h => absurd h Signed.signature_ne) rfl rfl
    (by decide +kernel)
  have hnone : (Signed.checkpoint Signed.typed Signed.changed).discard
      = (.ok none, (Signed.checkpoint Signed.typed Signed.changed).discard.2) :=
    Prod.ext (by decide +kernel) rfl
  exact ⟨hbytes, _, hrecover.trans hnone, hagain _ _ hnone .still⟩

/-- A view of all documents and a view of those whose type is empty cannot be told apart, and
neither can two views whose texts hold zeros. What the first one stored, the second one takes
over. -/
theorem not_signature_separates_emptyTyped :
    Signed.untyped.docType ≠ Signed.emptyTyped.docType ∧
    Signed.untyped.signatureBytes = Signed.emptyTyped.signatureBytes ∧
    ((Signed.checkpoint Signed.untyped Signed.emptyTyped).recover Signed.tail).1
      = .ok (some ⟨Signed.tail, [⟨"a", [(⟨[0x10]⟩, .nat 1)]⟩], 0, 0⟩) ∧
    Signed.zeroNamed.name ≠ Signed.zeroTyped.name ∧
    Signed.zeroNamed.signatureBytes = Signed.zeroTyped.signatureBytes := by
  refine ⟨by decide, by decide +kernel, by decide +kernel, by decide, by decide +kernel⟩

end View

end ViewIndex
