/-
The SHA-256 digest of a sequence of bytes.

The message is padded to whole blocks of sixteen words; each block is
extended to sixty-four words and stirred into eight words of state. Words
are 32 bits wide and their arithmetic wraps, which is what the standard
asks for.
-/

namespace CallTrace.Digest

/-- The round constants: the first 32 bits of the fractions of the cube
roots of the first 64 primes. -/
def roundConstants : List UInt32 :=
  [0x428a2f98, 0x71374491, 0xb5c0fbcf, 0xe9b5dba5, 0x3956c25b, 0x59f111f1,
   0x923f82a4, 0xab1c5ed5, 0xd807aa98, 0x12835b01, 0x243185be, 0x550c7dc3,
   0x72be5d74, 0x80deb1fe, 0x9bdc06a7, 0xc19bf174, 0xe49b69c1, 0xefbe4786,
   0x0fc19dc6, 0x240ca1cc, 0x2de92c6f, 0x4a7484aa, 0x5cb0a9dc, 0x76f988da,
   0x983e5152, 0xa831c66d, 0xb00327c8, 0xbf597fc7, 0xc6e00bf3, 0xd5a79147,
   0x06ca6351, 0x14292967, 0x27b70a85, 0x2e1b2138, 0x4d2c6dfc, 0x53380d13,
   0x650a7354, 0x766a0abb, 0x81c2c92e, 0x92722c85, 0xa2bfe8a1, 0xa81a664b,
   0xc24b8b70, 0xc76c51a3, 0xd192e819, 0xd6990624, 0xf40e3585, 0x106aa070,
   0x19a4c116, 0x1e376c08, 0x2748774c, 0x34b0bcb5, 0x391c0cb3, 0x4ed8aa4a,
   0x5b9cca4f, 0x682e6ff3, 0x748f82ee, 0x78a5636f, 0x84c87814, 0x8cc70208,
   0x90befffa, 0xa4506ceb, 0xbef9a3f7, 0xc67178f2]

/-- The eight words of state. -/
structure Words where
  a : UInt32
  b : UInt32
  c : UInt32
  d : UInt32
  e : UInt32
  f : UInt32
  g : UInt32
  h : UInt32

/-- The state before the first block: the first 32 bits of the fractions
of the square roots of the first eight primes. -/
def Words.start : Words :=
  ⟨0x6a09e667, 0xbb67ae85, 0x3c6ef372, 0xa54ff53a,
   0x510e527f, 0x9b05688c, 0x1f83d9ab, 0x5be0cd19⟩

private def rotate (x : UInt32) (n : UInt32) : UInt32 :=
  (x >>> n) ||| (x <<< (32 - n))

/-- One round, with a word of the schedule and the round's constant. -/
private def Words.round (s : Words) (w k : UInt32) : Words :=
  let s1 := rotate s.e 6 ^^^ rotate s.e 11 ^^^ rotate s.e 25
  let choice := (s.e &&& s.f) ^^^ ((~~~s.e) &&& s.g)
  let t1 := s.h + s1 + choice + k + w
  let s0 := rotate s.a 2 ^^^ rotate s.a 13 ^^^ rotate s.a 22
  let majority := (s.a &&& s.b) ^^^ (s.a &&& s.c) ^^^ (s.b &&& s.c)
  ⟨t1 + (s0 + majority), s.a, s.b, s.c, s.d + t1, s.e, s.f, s.g⟩

private def Words.add (s t : Words) : Words :=
  ⟨s.a + t.a, s.b + t.b, s.c + t.c, s.d + t.d,
   s.e + t.e, s.f + t.f, s.g + t.g, s.h + t.h⟩

/-- The next word of the schedule, from those before it, the latest
first. -/
private def nextWord (ws : List UInt32) : UInt32 :=
  let back (n : Nat) : UInt32 := ws.getD (n - 1) 0
  let x := back 15
  let y := back 2
  let s0 := rotate x 7 ^^^ rotate x 18 ^^^ (x >>> 3)
  let s1 := rotate y 17 ^^^ rotate y 19 ^^^ (y >>> 10)
  back 16 + s0 + back 7 + s1

/-- The block's sixteen words and the forty-eight that follow from them,
the latest first. -/
private def schedule (block : List UInt32) : List UInt32 :=
  (List.range 48).foldl (fun ws _ => nextWord ws :: ws) block.reverse

private def Words.absorb (s : Words) (block : List UInt32) : Words :=
  let rounds := (schedule block).reverse.zip roundConstants
  s.add (rounds.foldl (fun t (w, k) => t.round w k) s)

-- =========================================================== padding

/-- The big-endian bytes of a number, `count` of them. -/
private def bytesOf (count n : Nat) : List UInt8 :=
  (List.range count).reverse.map fun i => UInt8.ofNat (n / Nat.pow 256 i % 256)

/-- The message, a set bit, zeros, and the length in bits, in whole blocks
of 64 bytes. -/
def padded (message : List UInt8) : List UInt8 :=
  let n := message.length
  message ++ 0x80 :: List.replicate ((119 - n % 64) % 64) 0 ++
    bytesOf 8 (8 * n)

/-- Words from big-endian bytes, four a word. -/
private def wordsOf (bytes : List UInt8) : List UInt32 :=
  go [] bytes
where
  go (done : List UInt32) : List UInt8 → List UInt32
    | a :: b :: c :: d :: rest =>
      let w := (a.toUInt32 <<< 24) ||| (b.toUInt32 <<< 16) |||
        (c.toUInt32 <<< 8) ||| d.toUInt32
      go (w :: done) rest
    | _ => done.reverse

/-- The state after all blocks; `count` is the number of blocks. -/
private def absorbAll : Nat → Words → List UInt32 → Words
  | 0, s, _ => s
  | count + 1, s, ws => absorbAll count (s.absorb (ws.take 16)) (ws.drop 16)

private def hex8 (w : UInt32) : List Char :=
  let ds := Nat.toDigits 16 w.toNat
  List.replicate (8 - ds.length) '0' ++ ds

/-- The digest of a message in 64 hexadecimal digits. -/
def sha256 (message : List UInt8) : List Char :=
  let ws := wordsOf (padded message)
  let s := absorbAll (ws.length / 16) Words.start ws
  [s.a, s.b, s.c, s.d, s.e, s.f, s.g, s.h].flatMap hex8

end CallTrace.Digest
