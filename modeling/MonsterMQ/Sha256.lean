import MonsterMQ.LittleEndian

/-!
# SHA-256

The hash function of FIPS 180-4 on bytes, with words as natural numbers modulo `2 ^ 32`. Nothing here
refers to a particular protocol.
-/

namespace MonsterMQ.Sha256

open LittleEndian

/-- The first 32 bits of the fractional parts of the cube roots of the first 64 primes. -/
def roundConstants : List ℕ :=
  [0x428a2f98, 0x71374491, 0xb5c0fbcf, 0xe9b5dba5, 0x3956c25b, 0x59f111f1, 0x923f82a4, 0xab1c5ed5,
    0xd807aa98, 0x12835b01, 0x243185be, 0x550c7dc3, 0x72be5d74, 0x80deb1fe, 0x9bdc06a7, 0xc19bf174,
    0xe49b69c1, 0xefbe4786, 0x0fc19dc6, 0x240ca1cc, 0x2de92c6f, 0x4a7484aa, 0x5cb0a9dc, 0x76f988da,
    0x983e5152, 0xa831c66d, 0xb00327c8, 0xbf597fc7, 0xc6e00bf3, 0xd5a79147, 0x06ca6351, 0x14292967,
    0x27b70a85, 0x2e1b2138, 0x4d2c6dfc, 0x53380d13, 0x650a7354, 0x766a0abb, 0x81c2c92e, 0x92722c85,
    0xa2bfe8a1, 0xa81a664b, 0xc24b8b70, 0xc76c51a3, 0xd192e819, 0xd6990624, 0xf40e3585, 0x106aa070,
    0x19a4c116, 0x1e376c08, 0x2748774c, 0x34b0bcb5, 0x391c0cb3, 0x4ed8aa4a, 0x5b9cca4f, 0x682e6ff3,
    0x748f82ee, 0x78a5636f, 0x84c87814, 0x8cc70208, 0x90befffa, 0xa4506ceb, 0xbef9a3f7, 0xc67178f2]

structure Words where
  a : ℕ
  b : ℕ
  c : ℕ
  d : ℕ
  e : ℕ
  f : ℕ
  g : ℕ
  h : ℕ

/-- The same of the square roots of the first eight primes. -/
def initial : Words :=
  ⟨0x6a09e667, 0xbb67ae85, 0x3c6ef372, 0xa54ff53a, 0x510e527f, 0x9b05688c, 0x1f83d9ab, 0x5be0cd19⟩

def rotr (x n : ℕ) : ℕ := (x >>> n ||| x <<< (32 - n)) % 4294967296

def bigSigma0 (x : ℕ) : ℕ := rotr x 2 ^^^ rotr x 13 ^^^ rotr x 22

def bigSigma1 (x : ℕ) : ℕ := rotr x 6 ^^^ rotr x 11 ^^^ rotr x 25

def smallSigma0 (x : ℕ) : ℕ := rotr x 7 ^^^ rotr x 18 ^^^ x >>> 3

def smallSigma1 (x : ℕ) : ℕ := rotr x 17 ^^^ rotr x 19 ^^^ x >>> 10

def ch (e f g : ℕ) : ℕ := (e &&& f) ^^^ ((4294967295 - e) &&& g)

def maj (a b c : ℕ) : ℕ := (a &&& b) ^^^ (a &&& c) ^^^ (b &&& c)

/-- The words of a block after `n` more words, the last one first. -/
def schedule : ℕ → List ℕ → List ℕ
  | 0, ws => ws
  | n + 1, ws =>
    let w := (smallSigma1 (ws.getD 1 0) + ws.getD 6 0 + smallSigma0 (ws.getD 14 0) + ws.getD 15 0) % 4294967296
    schedule n (w :: ws)

def round (s : Words) (kw : ℕ × ℕ) : Words :=
  let t1 := s.h + bigSigma1 s.e + ch s.e s.f s.g + kw.1 + kw.2
  let t2 := bigSigma0 s.a + maj s.a s.b s.c
  ⟨(t1 + t2) % 4294967296, s.a, s.b, s.c, (s.d + t1) % 4294967296, s.e, s.f, s.g⟩

def bigEndian (b : Bytes) : ℕ := get b.reverse

def toBigEndian (n k : ℕ) : Bytes := (put k n).reverse

def pieces (size : ℕ) : ℕ → Bytes → List Bytes
  | 0, _ => []
  | n + 1, b => b.take size :: pieces size n (b.drop size)

def block (s : Words) (b : Bytes) : Words :=
  let ws := (schedule 48 ((pieces 4 16 b).map bigEndian).reverse).reverse
  let t := (roundConstants.zip ws).foldl round s
  ⟨(s.a + t.a) % 4294967296, (s.b + t.b) % 4294967296, (s.c + t.c) % 4294967296, (s.d + t.d) % 4294967296,
    (s.e + t.e) % 4294967296, (s.f + t.f) % 4294967296, (s.g + t.g) % 4294967296, (s.h + t.h) % 4294967296⟩

def padded (b : Bytes) : Bytes :=
  b ++ 0x80 :: List.replicate ((119 - b.length % 64) % 64) 0x00 ++ toBigEndian (8 * b.length % 2 ^ 64) 8

def sum256 (b : Bytes) : Bytes :=
  let p := padded b
  let s := (pieces 64 (p.length / 64) p).foldl block initial
  [s.a, s.b, s.c, s.d, s.e, s.f, s.g, s.h].flatMap fun n => toBigEndian n 4

private theorem toBigEndian_length (n k : ℕ) : (toBigEndian n k).length = k := by
  rw [toBigEndian, List.length_reverse, put_length]

theorem sum256_length (b : Bytes) : (sum256 b).length = 32 := by
  simp only [sum256, List.flatMap_cons, List.flatMap_nil, List.length_append, toBigEndian_length, List.length_nil]

end MonsterMQ.Sha256
