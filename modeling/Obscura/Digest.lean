import Obscura.Text.Utf8

/-
  Digests. They share words of 32 bits in either byte order, and the padding of a
  message to whole blocks of 64 bytes.
-/

namespace Obscura.Digest

open Text

def rotl (x : UInt32) (n : UInt32) : UInt32 :=
  (x <<< n) ||| (x >>> (32 - n))

def rotr (x : UInt32) (n : UInt32) : UInt32 :=
  (x >>> n) ||| (x <<< (32 - n))

def bigBytes (x : UInt32) : Bytes :=
  [(x >>> 24).toUInt8, (x >>> 16).toUInt8, (x >>> 8).toUInt8, x.toUInt8]

def littleBytes (x : UInt32) : Bytes :=
  (bigBytes x).reverse

def bigWord (a b c d : UInt8) : UInt32 :=
  (a.toUInt32 <<< 24) ||| (b.toUInt32 <<< 16) ||| (c.toUInt32 <<< 8) ||| d.toUInt32

def bigWords : Bytes → List UInt32
  | a :: b :: c :: d :: s => bigWord a b c d :: bigWords s
  | _ => []

def littleWords : Bytes → List UInt32
  | a :: b :: c :: d :: s => bigWord d c b a :: littleWords s
  | _ => []

/-- A message with a mark and zeros up to eight bytes before the end of a block. -/
def padded (m : Bytes) : Bytes :=
  m ++ 0x80 :: List.replicate ((119 - m.length % 64) % 64) 0

/-- The number of bits of a message, modulo 2^64, as two words, the higher
first. -/
def bitLength (m : Bytes) : UInt32 × UInt32 :=
  let n := m.length * 8
  (UInt32.ofNat (n / Nat.pow 2 32), UInt32.ofNat n)

def blocks (ws : List UInt32) : List (List UInt32) :=
  match ws with
  | [] => []
  | w :: r => (w :: r).take 16 :: blocks ((w :: r).drop 16)
termination_by ws.length
decreasing_by
  simp only [List.length_drop, List.length_cons]
  omega

def hexDigitOf (n : Nat) : Char :=
  if n < 10 then Char.ofNat (48 + n) else Char.ofNat (87 + n)

def hexText (s : Bytes) : Chars :=
  s.flatMap fun b => [hexDigitOf (b.toNat / 16), hexDigitOf (b.toNat % 16)]

namespace Sha1

structure State where
  a : UInt32
  b : UInt32
  c : UInt32
  d : UInt32
  e : UInt32

def initial : State := ⟨0x67452301, 0xEFCDAB89, 0x98BADCFE, 0x10325476, 0xC3D2E1F0⟩

def schedule (block : List UInt32) : Array UInt32 :=
  (List.range 64).foldl (fun w i =>
    w.push (rotl (w.getD (i + 13) 0 ^^^ w.getD (i + 8) 0 ^^^ w.getD (i + 2) 0 ^^^ w.getD i 0) 1))
    block.toArray

def mix (t : Nat) (b c d : UInt32) : UInt32 × UInt32 :=
  if t < 20 then ((b &&& c) ||| (~~~b &&& d), 0x5A827999)
  else if t < 40 then (b ^^^ c ^^^ d, 0x6ED9EBA1)
  else if t < 60 then ((b &&& c) ||| (b &&& d) ||| (c &&& d), 0x8F1BBCDC)
  else (b ^^^ c ^^^ d, 0xCA62C1D6)

def round (w : Array UInt32) (s : State) (t : Nat) : State :=
  let (f, k) := mix t s.b s.c s.d
  ⟨rotl s.a 5 + f + s.e + k + w.getD t 0, s.a, rotl s.b 30, s.c, s.d⟩

def absorb (s : State) (block : List UInt32) : State :=
  let w := schedule block
  let r := (List.range 80).foldl (round w) s
  ⟨s.a + r.a, s.b + r.b, s.c + r.c, s.d + r.d, s.e + r.e⟩

def digest (m : Bytes) : Bytes :=
  let (hi, lo) := bitLength m
  let words := bigWords (padded m ++ bigBytes hi ++ bigBytes lo)
  let s := (blocks words).foldl absorb initial
  bigBytes s.a ++ bigBytes s.b ++ bigBytes s.c ++ bigBytes s.d ++ bigBytes s.e

end Sha1

namespace Sha256

structure State where
  a : UInt32
  b : UInt32
  c : UInt32
  d : UInt32
  e : UInt32
  f : UInt32
  g : UInt32
  h : UInt32

def initial : State :=
  ⟨0x6a09e667, 0xbb67ae85, 0x3c6ef372, 0xa54ff53a, 0x510e527f, 0x9b05688c, 0x1f83d9ab, 0x5be0cd19⟩

def constants : Array UInt32 :=
  #[0x428a2f98, 0x71374491, 0xb5c0fbcf, 0xe9b5dba5, 0x3956c25b, 0x59f111f1,
   0x923f82a4, 0xab1c5ed5, 0xd807aa98, 0x12835b01, 0x243185be, 0x550c7dc3,
   0x72be5d74, 0x80deb1fe, 0x9bdc06a7, 0xc19bf174, 0xe49b69c1, 0xefbe4786,
   0x0fc19dc6, 0x240ca1cc, 0x2de92c6f, 0x4a7484aa, 0x5cb0a9dc, 0x76f988da,
   0x983e5152, 0xa831c66d, 0xb00327c8, 0xbf597fc7, 0xc6e00bf3, 0xd5a79147,
   0x06ca6351, 0x14292967, 0x27b70a85, 0x2e1b2138, 0x4d2c6dfc, 0x53380d13,
   0x650a7354, 0x766a0abb, 0x81c2c92e, 0x92722c85, 0xa2bfe8a1, 0xa81a664b,
   0xc24b8b70, 0xc76c51a3, 0xd192e819, 0xd6990624, 0xf40e3585, 0x106aa070,
   0x19a4c116, 0x1e376c08, 0x2748774c, 0x34b0bcb5, 0x391c0cb3, 0x4ed8aa4a,
   0x5b9cca4f, 0x682e6ff3, 0x748f82ee, 0x78a5636f, 0x84c87814, 0x8cc70208,
   0x90befffa, 0xa4506ceb, 0xbef9a3f7, 0xc67178f2]

def small0 (x : UInt32) : UInt32 := rotr x 7 ^^^ rotr x 18 ^^^ (x >>> 3)

def small1 (x : UInt32) : UInt32 := rotr x 17 ^^^ rotr x 19 ^^^ (x >>> 10)

def large0 (x : UInt32) : UInt32 := rotr x 2 ^^^ rotr x 13 ^^^ rotr x 22

def large1 (x : UInt32) : UInt32 := rotr x 6 ^^^ rotr x 11 ^^^ rotr x 25

def schedule (block : List UInt32) : Array UInt32 :=
  (List.range 48).foldl (fun w i =>
    w.push (small1 (w.getD (i + 14) 0) + w.getD (i + 9) 0 + small0 (w.getD (i + 1) 0) + w.getD i 0))
    block.toArray

def round (w : Array UInt32) (s : State) (t : Nat) : State :=
  let choose := (s.e &&& s.f) ^^^ (~~~s.e &&& s.g)
  let majority := (s.a &&& s.b) ^^^ (s.a &&& s.c) ^^^ (s.b &&& s.c)
  let t1 := s.h + large1 s.e + choose + constants.getD t 0 + w.getD t 0
  let t2 := large0 s.a + majority
  ⟨t1 + t2, s.a, s.b, s.c, s.d + t1, s.e, s.f, s.g⟩

def absorb (s : State) (block : List UInt32) : State :=
  let w := schedule block
  let r := (List.range 64).foldl (round w) s
  ⟨s.a + r.a, s.b + r.b, s.c + r.c, s.d + r.d, s.e + r.e, s.f + r.f, s.g + r.g, s.h + r.h⟩

def digest (m : Bytes) : Bytes :=
  let (hi, lo) := bitLength m
  let words := bigWords (padded m ++ bigBytes hi ++ bigBytes lo)
  let s := (blocks words).foldl absorb initial
  bigBytes s.a ++ bigBytes s.b ++ bigBytes s.c ++ bigBytes s.d
    ++ bigBytes s.e ++ bigBytes s.f ++ bigBytes s.g ++ bigBytes s.h

end Sha256

namespace Md5

structure State where
  a : UInt32
  b : UInt32
  c : UInt32
  d : UInt32

def initial : State := ⟨0x67452301, 0xefcdab89, 0x98badcfe, 0x10325476⟩

def constants : Array UInt32 :=
  #[0xd76aa478, 0xe8c7b756, 0x242070db, 0xc1bdceee, 0xf57c0faf, 0x4787c62a,
   0xa8304613, 0xfd469501, 0x698098d8, 0x8b44f7af, 0xffff5bb1, 0x895cd7be,
   0x6b901122, 0xfd987193, 0xa679438e, 0x49b40821, 0xf61e2562, 0xc040b340,
   0x265e5a51, 0xe9b6c7aa, 0xd62f105d, 0x02441453, 0xd8a1e681, 0xe7d3fbc8,
   0x21e1cde6, 0xc33707d6, 0xf4d50d87, 0x455a14ed, 0xa9e3e905, 0xfcefa3f8,
   0x676f02d9, 0x8d2a4c8a, 0xfffa3942, 0x8771f681, 0x6d9d6122, 0xfde5380c,
   0xa4beea44, 0x4bdecfa9, 0xf6bb4b60, 0xbebfbc70, 0x289b7ec6, 0xeaa127fa,
   0xd4ef3085, 0x04881d05, 0xd9d4d039, 0xe6db99e5, 0x1fa27cf8, 0xc4ac5665,
   0xf4292244, 0x432aff97, 0xab9423a7, 0xfc93a039, 0x655b59c3, 0x8f0ccc92,
   0xffeff47d, 0x85845dd1, 0x6fa87e4f, 0xfe2ce6e0, 0xa3014314, 0x4e0811a1,
   0xf7537e82, 0xbd3af235, 0x2ad7d2bb, 0xeb86d391]

def shift (t : Nat) : UInt32 :=
  let row : List UInt32 :=
    if t < 16 then [7, 12, 17, 22]
    else if t < 32 then [5, 9, 14, 20]
    else if t < 48 then [4, 11, 16, 23]
    else [6, 10, 15, 21]
  row.getD (t % 4) 0

/-- The mixing function of a round, and which word of the block it takes. -/
def mix (t : Nat) (b c d : UInt32) : UInt32 × Nat :=
  if t < 16 then ((b &&& c) ||| (~~~b &&& d), t)
  else if t < 32 then ((d &&& b) ||| (~~~d &&& c), (5 * t + 1) % 16)
  else if t < 48 then (b ^^^ c ^^^ d, (3 * t + 5) % 16)
  else (c ^^^ (b ||| ~~~d), (7 * t) % 16)

def round (w : Array UInt32) (s : State) (t : Nat) : State :=
  let (f, g) := mix t s.b s.c s.d
  ⟨s.d, s.b + rotl (s.a + f + constants.getD t 0 + w.getD g 0) (shift t), s.b, s.c⟩

def absorb (s : State) (block : List UInt32) : State :=
  let r := (List.range 64).foldl (round block.toArray) s
  ⟨s.a + r.a, s.b + r.b, s.c + r.c, s.d + r.d⟩

def digest (m : Bytes) : Bytes :=
  let (hi, lo) := bitLength m
  let words := littleWords (padded m ++ littleBytes lo ++ littleBytes hi)
  let s := (blocks words).foldl absorb initial
  littleBytes s.a ++ littleBytes s.b ++ littleBytes s.c ++ littleBytes s.d

end Md5

end Obscura.Digest
