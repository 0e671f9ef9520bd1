import ViewIndex.Bytes
import ViewIndex.Json.Printer
import ViewIndex.Key.Basic
import ViewIndex.Text.Hex

/-!
# Encoded keys

An encoded key is a byte string whose lexicographic order is the order of keys. Every component is
encoded so that no encoding is the beginning of another, and a key is the concatenation of its
components. The first components of a key are therefore a prefix of its bytes, and the keys that
begin with given components form an interval.
-/

namespace ViewIndex

/-- A key in encoded form. Any byte string may stand here; not all of them decode. -/
structure EncodedKey where
  bytes : Bytes
deriving DecidableEq, Repr, Inhabited

instance : Ord EncodedKey := ⟨fun a b => compare a.bytes b.bytes⟩

namespace KeyPart

/-! The first byte of a component gives its kind. -/

def nullTag : UInt8 := 0x10
def falseTag : UInt8 := 0x20
def trueTag : UInt8 := 0x21
def numberTag : UInt8 := 0x30
def textTag : UInt8 := 0x40
def arrayTag : UInt8 := 0x50

/-- Ends the items of an array. It is smaller than every tag. -/
def arrayEnd : UInt8 := 0x00

/-- A word whose unsigned order is the order of numbers: positive patterns move above the negative
ones, and the latter are turned around. -/
def orderedWord (x : Binary64) : UInt64 :=
  if x.isNegative then ~~~x.bits else x.bits + Binary64.signBit

/-- The number with a given ordered word. -/
def ofOrderedWord (word : UInt64) : Binary64 :=
  if Binary64.signBit ≤ word then ⟨word - Binary64.signBit⟩ else ⟨~~~word⟩

/-- Writes a zero byte as a zero followed by 255. -/
def escapeZeros : Bytes → Bytes
  | [] => []
  | b :: rest => if b = 0 then 0 :: 0xFF :: escapeZeros rest else b :: escapeZeros rest

/-- Escaped bytes, ended by two zeros. -/
def terminate (bytes : Bytes) : Bytes := escapeZeros bytes ++ [0, 0]

/-- Reads escaped bytes up to the two zeros that end them. -/
def readTerminated : Bytes → Option (Bytes × Bytes)
  | [] => none
  | b :: rest =>
      if b ≠ 0 then (readTerminated rest).map fun (bytes, rest) => (b :: bytes, rest)
      else
        match rest with
        | [] => none
        | c :: rest =>
            if c = 0xFF then (readTerminated rest).map fun (bytes, rest) => (0 :: bytes, rest)
            else if c = 0 then some ([], rest)
            else none

mutual

def encode : KeyPart → Except KeyError Bytes
  | .null => .ok [nullTag]
  | .bool false => .ok [falseTag]
  | .bool true => .ok [trueTag]
  | .number x =>
      if x.isFinite then .ok (numberTag :: Bytes.bigEndian 8 (orderedWord x.unsignedZero).toNat)
      else .error .nonFiniteNumber
  | .text s => .ok (textTag :: terminate (Bytes.ofText s))
  | .array items => (encodeItems items).map fun bytes => arrayTag :: bytes ++ [arrayEnd]

/-- The bytes of components one after the other. -/
def encodeItems : List KeyPart → Except KeyError Bytes
  | [] => .ok []
  | part :: rest => do
      let first ← encode part
      let others ← encodeItems rest
      return first ++ others

end

mutual

/-- Reads one component and returns it with the bytes that follow. Every component takes at least
one byte, so twice the number of bytes is enough fuel. -/
def decode : (fuel : Nat) → Bytes → Option (KeyPart × Bytes)
  | 0, _ => none
  | _ + 1, [] => none
  | fuel + 1, tag :: rest =>
      if tag = nullTag then some (.null, rest)
      else if tag = falseTag then some (.bool false, rest)
      else if tag = trueTag then some (.bool true, rest)
      else if tag = numberTag then
        (Bytes.split? 8 rest).map fun (word, rest) =>
          (.number (ofOrderedWord (UInt64.ofNat (Bytes.ofBigEndian word))), rest)
      else if tag = textTag then do
        let (bytes, rest) ← readTerminated rest
        let s ← Bytes.toText? bytes
        return (.text s, rest)
      else if tag = arrayTag then
        (decodeItems fuel rest).map fun (items, rest) => (.array items, rest)
      else none

/-- Reads components up to the end of an array. -/
def decodeItems : (fuel : Nat) → Bytes → Option (List KeyPart × Bytes)
  | 0, _ => none
  | _ + 1, [] => none
  | fuel + 1, b :: rest =>
      if b = arrayEnd then some ([], rest)
      else do
        let (part, rest) ← decode fuel (b :: rest)
        let (parts, rest) ← decodeItems fuel rest
        return (part :: parts, rest)

end

/-- Reads the component at the start of a byte string. -/
def decodeFirst (bytes : Bytes) : Option (KeyPart × Bytes) := decode (2 * bytes.length + 1) bytes

/-- The bytes of the component at the start of a byte string, and the bytes that follow. -/
def splitFirst (bytes : Bytes) : Option (Bytes × Bytes) :=
  (decodeFirst bytes).map fun (_, rest) => (bytes.take (bytes.length - rest.length), rest)

end KeyPart

/-- The encoded form of a key. It fails only on numbers that are not finite. -/
def Key.encode (key : Key) : Except KeyError EncodedKey :=
  (KeyPart.encodeItems key).map EncodedKey.mk

namespace EncodedKey

/-- The components that the bytes consist of. -/
def decodeAll : (fuel : Nat) → Bytes → Option Key
  | _, [] => some []
  | 0, _ :: _ => none
  | fuel + 1, bytes => do
      let (part, rest) ← KeyPart.decodeFirst bytes
      let parts ← decodeAll fuel rest
      return part :: parts

def decode (key : EncodedKey) : Except KeyError Key :=
  match decodeAll key.bytes.length key.bytes with
  | some parts => .ok parts
  | none => .error .malformed

def arity (key : EncodedKey) : Except KeyError Nat := key.decode.map List.length

/-- The bytes of the first `level` components, or all bytes if there are fewer. -/
def firstComponents : (level : Nat) → Bytes → Option Bytes
  | 0, _ => some []
  | _ + 1, [] => some []
  | level + 1, bytes => do
      let (first, rest) ← KeyPart.splitFirst bytes
      let others ← firstComponents level rest
      return first ++ others

/-- The key of the first `level` components. Bytes behind them are not looked at. -/
def truncate (key : EncodedKey) (level : Nat) : Except KeyError EncodedKey :=
  match firstComponents level key.bytes with
  | some bytes => .ok ⟨bytes⟩
  | none => .error .malformed

/-- The label of a key among groups of `level` components: the key of the first components, or the
whole key if it does not decode that far. -/
def groupLabel (key : EncodedKey) (level : Nat) : EncodedKey :=
  match key.truncate level with
  | .ok label => label
  | .error _ => key

/-- Whether the bytes begin with those of another key. -/
def hasPrefix (key start : EncodedKey) : Bool := start.bytes.isPrefixOf key.bytes

/-- The bytes after all those that begin with the given ones: the last byte below 255 is raised by
one and the bytes behind it are dropped. -/
def successorBytes : Bytes → Option Bytes
  | [] => none
  | b :: rest =>
      match successorBytes rest with
      | some rest => some (b :: rest)
      | none => if b < 0xFF then some [b + 1] else none

/-- The strict upper bound of the keys that begin with this one; there is none if no byte is below
255. -/
def prefixEnd (key : EncodedKey) : Option EncodedKey := (successorBytes key.bytes).map EncodedKey.mk

/-- The key in readable form: as JSON if it decodes, else byte by byte. -/
def describe (key : EncodedKey) : String :=
  match key.decode with
  | .ok parts => s!"EncodedKey({parts.toJson.compact})"
  | .error _ =>
      let bytes := ", ".intercalate (key.bytes.map fun b => Text.hexFixed 2 b.toNat)
      s!"EncodedKey([{bytes}])"

end EncodedKey

end ViewIndex
