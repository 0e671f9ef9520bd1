/-!
# XXH3

The 64-bit XXH3 hash with a seed. Inputs of up to sixteen bytes, of up to 240 bytes and longer ones
are hashed by different rules; the long ones are read in stripes of 64 bytes that are mixed into
eight lanes.
-/

namespace ViewIndex.XXH3

def prime32_1 : UInt64 := 0x9E3779B1
def prime32_2 : UInt64 := 0x85EBCA77
def prime32_3 : UInt64 := 0xC2B2AE3D
def prime64_1 : UInt64 := 0x9E3779B185EBCA87
def prime64_2 : UInt64 := 0xC2B2AE3D27D4EB4F
def prime64_3 : UInt64 := 0x165667B19E3779F9
def prime64_4 : UInt64 := 0x85EBCA77C2B2AE63
def prime64_5 : UInt64 := 0x27D4EB2F165667C5
def mixPrime1 : UInt64 := 0x165667919E3779F9
def mixPrime2 : UInt64 := 0x9FB21C651E98DF25

/-- The key material of the algorithm. -/
def secret : ByteArray := ⟨#[
  0xb8, 0xfe, 0x6c, 0x39, 0x23, 0xa4, 0x4b, 0xbe, 0x7c, 0x01, 0x81, 0x2c, 0xf7, 0x21, 0xad, 0x1c,
  0xde, 0xd4, 0x6d, 0xe9, 0x83, 0x90, 0x97, 0xdb, 0x72, 0x40, 0xa4, 0xa4, 0xb7, 0xb3, 0x67, 0x1f,
  0xcb, 0x79, 0xe6, 0x4e, 0xcc, 0xc0, 0xe5, 0x78, 0x82, 0x5a, 0xd0, 0x7d, 0xcc, 0xff, 0x72, 0x21,
  0xb8, 0x08, 0x46, 0x74, 0xf7, 0x43, 0x24, 0x8e, 0xe0, 0x35, 0x90, 0xe6, 0x81, 0x3a, 0x26, 0x4c,
  0x3c, 0x28, 0x52, 0xbb, 0x91, 0xc3, 0x00, 0xcb, 0x88, 0xd0, 0x65, 0x8b, 0x1b, 0x53, 0x2e, 0xa3,
  0x71, 0x64, 0x48, 0x97, 0xa2, 0x0d, 0xf9, 0x4e, 0x38, 0x19, 0xef, 0x46, 0xa9, 0xde, 0xac, 0xd8,
  0xa8, 0xfa, 0x76, 0x3f, 0xe3, 0x9c, 0x34, 0x3f, 0xf9, 0xdc, 0xbb, 0xc7, 0xc7, 0x0b, 0x4f, 0x1d,
  0x8a, 0x51, 0xe0, 0x4b, 0xcd, 0xb4, 0x59, 0x31, 0xc8, 0x9f, 0x7e, 0xc9, 0xd9, 0x78, 0x73, 0x64,
  0xea, 0xc5, 0xac, 0x83, 0x34, 0xd3, 0xeb, 0xc3, 0xc5, 0x81, 0xa0, 0xff, 0xfa, 0x13, 0x63, 0xeb,
  0x17, 0x0d, 0xdd, 0x51, 0xb7, 0xf0, 0xda, 0x49, 0xd3, 0x16, 0x55, 0x26, 0x29, 0xd4, 0x68, 0x9e,
  0x2b, 0x16, 0xbe, 0x58, 0x7d, 0x47, 0xa1, 0xfc, 0x8f, 0xf8, 0xb8, 0xd1, 0x7a, 0xd0, 0x31, 0xce,
  0x45, 0xcb, 0x3a, 0x8f, 0x95, 0x16, 0x04, 0x28, 0xaf, 0xd7, 0xfb, 0xca, 0xbb, 0x4b, 0x40, 0x7e]⟩

/-- The byte at an offset; zero outside the data. -/
def byteAt (data : ByteArray) (offset : Nat) : UInt64 := (data.data.getD offset 0).toUInt64

/-- The four bytes at an offset as a little-endian number. -/
def word32 (data : ByteArray) (offset : Nat) : UInt64 :=
  byteAt data offset ||| byteAt data (offset + 1) <<< 8 ||| byteAt data (offset + 2) <<< 16 |||
    byteAt data (offset + 3) <<< 24

/-- The eight bytes at an offset as a little-endian number. -/
def word64 (data : ByteArray) (offset : Nat) : UInt64 :=
  word32 data offset ||| word32 data (offset + 4) <<< 32

def rotateLeft (x n : UInt64) : UInt64 := x <<< n ||| x >>> (64 - n)

def lowHalf (x : UInt64) : UInt64 := x &&& 0xFFFFFFFF

def swap32 (x : UInt64) : UInt64 :=
  (x &&& 0xFF) <<< 24 ||| (x >>> 8 &&& 0xFF) <<< 16 ||| (x >>> 16 &&& 0xFF) <<< 8 |||
    (x >>> 24 &&& 0xFF)

def swap64 (x : UInt64) : UInt64 := swap32 (lowHalf x) <<< 32 ||| swap32 (x >>> 32)

/-- The two halves of a 128-bit product, combined by exclusive or. -/
def foldProduct (x y : UInt64) : UInt64 :=
  let product := x.toNat * y.toNat
  UInt64.ofNat product ^^^ UInt64.ofNat (product >>> 64)

def avalanche (hash : UInt64) : UInt64 :=
  let hash := (hash ^^^ hash >>> 37) * mixPrime1
  hash ^^^ hash >>> 32

def strongAvalanche (hash : UInt64) : UInt64 :=
  let hash := (hash ^^^ hash >>> 33) * prime64_2
  let hash := (hash ^^^ hash >>> 29) * prime64_3
  hash ^^^ hash >>> 32

def hashUpTo3 (seed : UInt64) (data : ByteArray) : UInt64 :=
  let size := data.size
  if size = 0 then strongAvalanche (seed ^^^ word64 secret 56 ^^^ word64 secret 64)
  else
    let combined := byteAt data 0 <<< 16 ||| byteAt data (size / 2) <<< 24 |||
      byteAt data (size - 1) ||| UInt64.ofNat size <<< 8
    strongAvalanche (combined ^^^ ((word32 secret 0 ^^^ word32 secret 4) + seed))

def hashUpTo8 (seed : UInt64) (data : ByteArray) : UInt64 :=
  let size := data.size
  let seed := seed ^^^ swap32 (lowHalf seed) <<< 32
  let flip := (word64 secret 8 ^^^ word64 secret 16) - seed
  let keyed := (word32 data (size - 4) + word32 data 0 <<< 32) ^^^ flip
  let hash := (keyed ^^^ rotateLeft keyed 49 ^^^ rotateLeft keyed 24) * mixPrime2
  let hash := (hash ^^^ (hash >>> 35 + UInt64.ofNat size)) * mixPrime2
  hash ^^^ hash >>> 28

def hashUpTo16 (seed : UInt64) (data : ByteArray) : UInt64 :=
  let size := data.size
  let low := word64 data 0 ^^^ ((word64 secret 24 ^^^ word64 secret 32) + seed)
  let high := word64 data (size - 8) ^^^ ((word64 secret 40 ^^^ word64 secret 48) - seed)
  avalanche (UInt64.ofNat size + swap64 low + high + foldProduct low high)

/-- Mixes sixteen bytes of input with sixteen bytes of the secret. -/
def mix16 (seed : UInt64) (data : ByteArray) (offset secretOffset : Nat) : UInt64 :=
  foldProduct (word64 data offset ^^^ (word64 secret secretOffset + seed))
    (word64 data (offset + 8) ^^^ (word64 secret (secretOffset + 8) - seed))

/-- Inputs of 17 to 128 bytes are mixed in pairs from both ends. -/
def hashUpTo128 (seed : UInt64) (data : ByteArray) : UInt64 :=
  let size := data.size
  let pairs := (size - 1) / 32 + 1
  let mixed := (List.range pairs).map fun i =>
    mix16 seed data (16 * i) (32 * i) + mix16 seed data (size - 16 * (i + 1)) (32 * i + 16)
  avalanche (mixed.foldl (· + ·) (UInt64.ofNat size * prime64_1))

def hashUpTo240 (seed : UInt64) (data : ByteArray) : UInt64 :=
  let size := data.size
  let first := (List.range 8).foldl (fun acc i => acc + mix16 seed data (16 * i) (16 * i))
    (UInt64.ofNat size * prime64_1)
  let later := (List.range (size / 16 - 8)).foldl
    (fun acc i => acc + mix16 seed data (16 * (i + 8)) (16 * i + 3)) (avalanche first)
  avalanche (later + mix16 seed data (size - 16) 119)

/-- The secret for long inputs: the seed is added to every other word and taken from the rest. -/
def seededSecret (seed : UInt64) : ByteArray :=
  let bytes (word : UInt64) : List UInt8 :=
    (List.range 8).map fun i => (word >>> UInt64.ofNat (8 * i)).toUInt8
  ⟨((List.range 12).flatMap fun i =>
    bytes (word64 secret (16 * i) + seed) ++ bytes (word64 secret (16 * i + 8) - seed)).toArray⟩

/-- The lanes before any input. -/
def startLanes : List UInt64 :=
  [prime32_3, prime64_1, prime64_2, prime64_3, prime64_4, prime32_2, prime64_5, prime32_1]

/-- Mixes the stripe at an offset into the lanes. Every lane also takes the input word of its
partner. -/
def accumulate (key data : ByteArray) (offset keyOffset : Nat) (lanes : List UInt64) :
    List UInt64 :=
  lanes.mapIdx fun (i : Nat) (lane : UInt64) =>
    let keyed := word64 data (offset + 8 * i) ^^^ word64 key (keyOffset + 8 * i)
    let partner := if i % 2 = 0 then i + 1 else i - 1
    lane + word64 data (offset + 8 * partner) + lowHalf keyed * (keyed >>> 32)

/-- Mixes `count` stripes from an offset on into the lanes. -/
def accumulateStripes (key data : ByteArray) (offset count : Nat) (lanes : List UInt64) :
    List UInt64 :=
  (List.range count).foldl (fun lanes i => accumulate key data (offset + 64 * i) (8 * i) lanes)
    lanes

/-- Stirs the lanes after a block of sixteen stripes. -/
def scramble (key : ByteArray) (lanes : List UInt64) : List UInt64 :=
  lanes.mapIdx fun (i : Nat) (lane : UInt64) =>
    (lane ^^^ lane >>> 47 ^^^ word64 key (128 + 8 * i)) * prime32_1

/-- Folds the lanes pair by pair onto a start value. -/
def mergeLanes (key : ByteArray) (start : UInt64) (lanes : List UInt64) : UInt64 :=
  let lane (i : Nat) : UInt64 := lanes.getD i 0
  avalanche ((List.range 4).foldl (fun acc i =>
    acc + foldProduct (lane (2 * i) ^^^ word64 key (11 + 16 * i))
      (lane (2 * i + 1) ^^^ word64 key (19 + 16 * i))) start)

def hashLong (seed : UInt64) (data : ByteArray) : UInt64 :=
  let size := data.size
  let key := seededSecret seed
  let blocks := (size - 1) / 1024
  let lanes := (List.range blocks).foldl
    (fun lanes i => scramble key (accumulateStripes key data (1024 * i) 16 lanes)) startLanes
  let lanes := accumulateStripes key data (1024 * blocks) ((size - 1) % 1024 / 64) lanes
  let lanes := accumulate key data (size - 64) 121 lanes
  mergeLanes key (UInt64.ofNat size * prime64_1) lanes

/-- The hash of a byte string under a seed. -/
def hashSeeded (seed : UInt64) (data : ByteArray) : UInt64 :=
  let size := data.size
  if size ≤ 3 then hashUpTo3 seed data
  else if size ≤ 8 then hashUpTo8 seed data
  else if size ≤ 16 then hashUpTo16 seed data
  else if size ≤ 128 then hashUpTo128 seed data
  else if size ≤ 240 then hashUpTo240 seed data
  else hashLong seed data

def hash (data : ByteArray) : UInt64 := hashSeeded 0 data

end ViewIndex.XXH3
