/-!
# SHA-256

The secure hash with 256 bits over lists of bytes: the message is padded to blocks of sixty-four
bytes, and each block is compressed into eight words.
-/

namespace AdaptivePopulation.Sha256

/-- The first thirty-two bits of the fractional parts of the cube roots of the first 64 primes. -/
def roundConstants : List UInt32 :=
  [0x428a2f98, 0x71374491, 0xb5c0fbcf, 0xe9b5dba5, 0x3956c25b, 0x59f111f1, 0x923f82a4, 0xab1c5ed5,
    0xd807aa98, 0x12835b01, 0x243185be, 0x550c7dc3, 0x72be5d74, 0x80deb1fe, 0x9bdc06a7, 0xc19bf174,
    0xe49b69c1, 0xefbe4786, 0x0fc19dc6, 0x240ca1cc, 0x2de92c6f, 0x4a7484aa, 0x5cb0a9dc, 0x76f988da,
    0x983e5152, 0xa831c66d, 0xb00327c8, 0xbf597fc7, 0xc6e00bf3, 0xd5a79147, 0x06ca6351, 0x14292967,
    0x27b70a85, 0x2e1b2138, 0x4d2c6dfc, 0x53380d13, 0x650a7354, 0x766a0abb, 0x81c2c92e, 0x92722c85,
    0xa2bfe8a1, 0xa81a664b, 0xc24b8b70, 0xc76c51a3, 0xd192e819, 0xd6990624, 0xf40e3585, 0x106aa070,
    0x19a4c116, 0x1e376c08, 0x2748774c, 0x34b0bcb5, 0x391c0cb3, 0x4ed8aa4a, 0x5b9cca4f, 0x682e6ff3,
    0x748f82ee, 0x78a5636f, 0x84c87814, 0x8cc70208, 0x90befffa, 0xa4506ceb, 0xbef9a3f7, 0xc67178f2]

/-- The working registers of the compression, which are the hash state between blocks. -/
structure Registers where
  a : UInt32
  b : UInt32
  c : UInt32
  d : UInt32
  e : UInt32
  f : UInt32
  g : UInt32
  h : UInt32

/-- The state before the first block. -/
def Registers.start : Registers :=
  ⟨0x6a09e667, 0xbb67ae85, 0x3c6ef372, 0xa54ff53a, 0x510e527f, 0x9b05688c, 0x1f83d9ab, 0x5be0cd19⟩

/-- The word turned to the right by a number of bits between zero and its width. -/
def rotateRight (w k : UInt32) : UInt32 := (w >>> k) ||| (w <<< (32 - k))

/-- The mixing of a word fifteen places back in the message schedule. -/
def smallSigma0 (w : UInt32) : UInt32 := rotateRight w 7 ^^^ rotateRight w 18 ^^^ (w >>> 3)

/-- The mixing of a word two places back in the message schedule. -/
def smallSigma1 (w : UInt32) : UInt32 := rotateRight w 17 ^^^ rotateRight w 19 ^^^ (w >>> 10)

/-- The mixing of the first register in a round. -/
def largeSigma0 (w : UInt32) : UInt32 := rotateRight w 2 ^^^ rotateRight w 13 ^^^ rotateRight w 22

/-- The mixing of the fifth register in a round. -/
def largeSigma1 (w : UInt32) : UInt32 := rotateRight w 6 ^^^ rotateRight w 11 ^^^ rotateRight w 25

/-- The bits of the second word where the first has ones, and of the third elsewhere. -/
def choose (x y z : UInt32) : UInt32 := (x &&& y) ^^^ (~~~x &&& z)

/-- The bits that at least two of the words have. -/
def majority (x y z : UInt32) : UInt32 := (x &&& y) ^^^ (x &&& z) ^^^ (y &&& z)

/-- The first words of the message schedule that starts with the given sixteen. -/
def schedule : Nat → Vector UInt32 16 → List UInt32
  | 0, _ => []
  | k + 1, w =>
    let next := smallSigma1 w[14] + w[9] + smallSigma0 w[1] + w[0]
    w[0] :: schedule k (Vector.ofFn fun i => if h : i.val + 1 < 16 then w[i.val + 1] else next)

/-- One round with its scheduled word and its constant. -/
def Registers.round (r : Registers) (wk : UInt32 × UInt32) : Registers :=
  let t₁ := r.h + largeSigma1 r.e + choose r.e r.f r.g + wk.2 + wk.1
  let t₂ := largeSigma0 r.a + majority r.a r.b r.c
  ⟨t₁ + t₂, r.a, r.b, r.c, r.d + t₁, r.e, r.f, r.g⟩

/-- Compresses one block of sixteen words into the state. -/
def Registers.compress (r : Registers) (words : Vector UInt32 16) : Registers :=
  let s := ((schedule 64 words).zip roundConstants).foldl Registers.round r
  ⟨r.a + s.a, r.b + s.b, r.c + s.c, r.d + s.d, r.e + s.e, r.f + s.f, r.g + s.g, r.h + s.h⟩

/-- The registers in order. -/
def Registers.words (r : Registers) : Vector UInt32 8 :=
  #v[r.a, r.b, r.c, r.d, r.e, r.f, r.g, r.h]

/-- The message, a set bit, as few zeros as fill whole blocks, and the length in bits. -/
def pad (message : List UInt8) : List UInt8 :=
  let zeros := (119 - message.length % 64) % 64
  let bits := UInt64.ofNat (8 * message.length)
  message ++ 0x80 :: List.replicate zeros 0 ++
    (List.range 8).map fun i => (bits >>> UInt64.ofNat (56 - 8 * i)).toUInt8

/-- Sixteen words from sixty-four bytes, the high byte of each word first. -/
def wordsOfBlock (bytes : List UInt8) : Vector UInt32 16 :=
  Vector.ofFn fun i =>
    (bytes.drop (4 * i.val)).take 4 |>.foldl (fun w b => (w <<< 8) ||| b.toUInt32) 0

/-- Compresses the given number of blocks of sixty-four bytes. -/
def absorb : Nat → List UInt8 → Registers → Registers
  | 0, _, r => r
  | k + 1, bytes, r => absorb k (bytes.drop 64) (r.compress (wordsOfBlock (bytes.take 64)))

/-- The hash of a message. -/
def digest (message : List UInt8) : Vector UInt8 32 :=
  let padded := pad message
  let words := (absorb (padded.length / 64) padded .start).words
  Vector.ofFn fun i => (words[i.val / 4] >>> UInt32.ofNat (24 - 8 * (i.val % 4))).toUInt8

end AdaptivePopulation.Sha256
