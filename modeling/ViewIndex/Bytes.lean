/-!
# Byte strings

Encoded keys and stored files are lists of bytes, ordered lexicographically. This module has the
fixed-width integers that occur in them and the passage between text and its UTF-8 form.
-/

namespace ViewIndex

abbrev Bytes := List UInt8

namespace Bytes

/-- The lowest `width` bytes of a number, least significant first. -/
def littleEndian : (width n : Nat) → Bytes
  | 0, _ => []
  | width + 1, n => UInt8.ofNat n :: littleEndian width (n / 256)

/-- The number that bytes denote, the first being the least significant. -/
def ofLittleEndian : Bytes → Nat
  | [] => 0
  | b :: rest => b.toNat + 256 * ofLittleEndian rest

/-- The lowest `width` bytes of a number, most significant first. -/
def bigEndian : (width n : Nat) → Bytes
  | 0, _ => []
  | width + 1, n => UInt8.ofNat (n >>> (8 * width)) :: bigEndian width n

/-- The number that bytes denote, the first being the most significant. -/
def ofBigEndian : Bytes → Nat
  | [] => 0
  | b :: rest => b.toNat <<< (8 * rest.length) + ofBigEndian rest

/-- The first `n` bytes and the others, if there are that many. -/
def split? (n : Nat) (bytes : Bytes) : Option (Bytes × Bytes) :=
  if n ≤ bytes.length then some (bytes.take n, bytes.drop n) else none

/-- The UTF-8 form of a text. -/
def ofText (s : String) : Bytes := s.toByteArray.data.toList

/-- The text with this UTF-8 form, if the bytes are valid UTF-8. -/
def toText? (bytes : Bytes) : Option String := String.fromUTF8? ⟨bytes.toArray⟩

end Bytes

end ViewIndex
