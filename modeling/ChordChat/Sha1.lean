import ChordChat.Bytes

/-!
# SHA-1 (sha1.cpp)

`Uint32` arithmetic is arithmetic of 32-bit words. The `unprocessedBytes` first
bytes of the 64-byte block are kept as a list; `assert(needed > 0)` is the field
`unprocessed_lt`. The only assertion a caller can violate is `num > 0` of
`addBytes`.
-/

namespace ChordChat

abbrev Uint32 := BitVec 32

structure Sha1 where
  H0 : Uint32
  H1 : Uint32
  H2 : Uint32
  H3 : Uint32
  H4 : Uint32
  bytes : Bytes
  size : Uint32
  unprocessed_lt : bytes.length < 64

namespace Sha1

def lrot (x : Uint32) (bits : ℕ) : Uint32 := (x <<< bits) ||| (x >>> (32 - bits))

def storeBigEndianUint32 (num : Uint32) : Bytes :=
  [(num >>> 24).setWidth 8, (num >>> 16).setWidth 8, (num >>> 8).setWidth 8, num.setWidth 8]

def initial : Sha1 :=
  ⟨0x67452301, 0xefcdab89, 0x98badcfe, 0x10325476, 0xc3d2e1f0, [], 0, by decide⟩

def blockWord (bytes : Bytes) (t : ℕ) : Uint32 :=
  ((bytes.getD (t * 4) 0).setWidth 32 <<< 24) + ((bytes.getD (t * 4 + 1) 0).setWidth 32 <<< 16) +
    ((bytes.getD (t * 4 + 2) 0).setWidth 32 <<< 8) + (bytes.getD (t * 4 + 3) 0).setWidth 32

def expand (W : List Uint32) (t : ℕ) : List Uint32 :=
  W ++ [lrot (W.getD (t - 3) 0 ^^^ W.getD (t - 8) 0 ^^^ W.getD (t - 14) 0 ^^^ W.getD (t - 16) 0) 1]

def words (bytes : Bytes) : List Uint32 :=
  (List.range' 16 64).foldl expand ((List.range 16).map (blockWord bytes))

def roundFunction (t : ℕ) (b c d : Uint32) : Uint32 × Uint32 :=
  if t < 20 then (0x5a827999, (b &&& c) ||| ((b ^^^ 0xFFFFFFFF) &&& d))
  else if t < 40 then (0x6ed9eba1, b ^^^ c ^^^ d)
  else if t < 60 then (0x8f1bbcdc, (b &&& c) ||| (b &&& d) ||| (c &&& d))
  else (0xca62c1d6, b ^^^ c ^^^ d)

def round (s : Uint32 × Uint32 × Uint32 × Uint32 × Uint32) (w : ℕ × Uint32) :
    Uint32 × Uint32 × Uint32 × Uint32 × Uint32 :=
  match s with
  | (a, b, c, d, e) =>
    let kf := roundFunction w.1 b c d
    (lrot a 5 + kf.2 + e + w.2 + kf.1, a, lrot b 30, c, d)

def process (s : Sha1) (bytes : Bytes) : Sha1 :=
  match ((List.range 80).zip (words bytes)).foldl round (s.H0, s.H1, s.H2, s.H3, s.H4) with
  | (a, b, c, d, e) =>
    ⟨s.H0 + a, s.H1 + b, s.H2 + c, s.H3 + d, s.H4 + e, [], s.size, Nat.zero_lt_succ 63⟩

/-- The loop of `SHA1::addBytes`; every pass copies at least one byte. -/
def copyBytes : ℕ → Sha1 → Bytes → Sha1
  | 0, s, _ => s
  | fuel + 1, s, data =>
    if data = [] then s
    else
      let needed := 64 - s.bytes.length
      let block := s.bytes ++ data.take needed
      if h : block.length < 64 then
        copyBytes fuel { s with bytes := block, unprocessed_lt := h } (data.drop needed)
      else copyBytes fuel (process s block) (data.drop needed)

def update (s : Sha1) (data : Bytes) : Sha1 :=
  copyBytes data.length { s with size := s.size + BitVec.ofNat 32 data.length } data

/-- `SHA1::addBytes`; `none` is the failed `assert(num > 0)`. -/
def addBytes (s : Sha1) (data : Bytes) (num : ℤ) : Option Sha1 :=
  if num > 0 then some (s.update (data.take num.toNat)) else none

/-- `SHA1::getDigest`. Each of its own calls of `addBytes` has `num > 0`. -/
def getDigest (s : Sha1) : Bytes :=
  let totalBitsL := s.size <<< 3
  let totalBitsH := s.size >>> 29
  let s1 := s.update [0x80]
  let s2 := if s1.bytes.length > 56 then s1.update (List.replicate (64 - s1.bytes.length) 0) else s1
  let neededZeros := 56 - s2.bytes.length
  let s3 := s2.update (List.replicate neededZeros 0 ++ storeBigEndianUint32 totalBitsH ++
    storeBigEndianUint32 totalBitsL)
  storeBigEndianUint32 s3.H0 ++ storeBigEndianUint32 s3.H1 ++ storeBigEndianUint32 s3.H2 ++
    storeBigEndianUint32 s3.H3 ++ storeBigEndianUint32 s3.H4

theorem getDigest_length (s : Sha1) : s.getDigest.length = 20 := rfl

end Sha1

end ChordChat
