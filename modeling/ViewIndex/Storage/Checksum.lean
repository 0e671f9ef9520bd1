import ViewIndex.Bytes

/-!
# Checksums

Two sums guard stored bytes against damage: one goes through the bytes of a log record one by one,
the other through the words of an image. The sum of an image can be computed piece by piece; the
bytes of a word that is not complete yet are kept until more arrive.
-/

namespace ViewIndex.Storage

def rotateLeft (word amount : UInt32) : UInt32 := word <<< amount ||| word >>> (32 - amount)

/-- The checksum of a log record: every byte is added, and the sum rotated by three bits. -/
def recordSum (bytes : Bytes) : UInt32 :=
  bytes.foldl (fun sum b => rotateLeft (sum + b.toUInt32) 3) 0

/-- A checksum under way. -/
structure Checksum where
  sum : UInt32 := 0
  /-- The bytes since the last complete word, fewer than four. -/
  pending : Bytes := []
deriving DecidableEq, Repr

namespace Checksum

/-- Adds a word and rotates by seven bits. Of fewer than four bytes the missing ones count as
zero. -/
def addWord (sum : UInt32) (word : Bytes) : UInt32 :=
  rotateLeft (sum + UInt32.ofNat (Bytes.ofLittleEndian word)) 7

/-- Adds all complete words of a byte string; the rest stays pending. -/
def absorb (sum : UInt32) : Bytes → Checksum
  | a :: b :: c :: d :: rest => absorb (addWord sum [a, b, c, d]) rest
  | pending => ⟨sum, pending⟩

/-- Continues with more bytes. The first of them go to the word that is pending, if there is one;
if they do not complete it, it stays pending with them. -/
def update (checksum : Checksum) (bytes : Bytes) : Checksum :=
  if checksum.pending.isEmpty then absorb checksum.sum bytes
  else
    let missing := 4 - checksum.pending.length
    let word := checksum.pending ++ bytes.take missing
    if word.length < 4 then ⟨checksum.sum, word⟩
    else absorb (addWord checksum.sum word) (bytes.drop missing)

/-- The sum of everything so far. -/
def finish (checksum : Checksum) : UInt32 :=
  if checksum.pending.isEmpty then checksum.sum else addWord checksum.sum checksum.pending

def ofBytes (bytes : Bytes) : UInt32 := (update {} bytes).finish

/-- The sum of a byte string that arrives in pieces. -/
def ofPieces (pieces : List Bytes) : UInt32 := (pieces.foldl update {}).finish

end Checksum

end ViewIndex.Storage
