/-!
# ChaCha blocks

The ChaCha permutation with twelve rounds, in counter mode with a 64-bit counter and a zero nonce.
A block is a pure function of the key and the block number.
-/

namespace AdaptivePopulation.Random

/-- The sixteen words that the rounds work on. -/
abbrev State := Vector UInt32 16

/-- The word turned to the left by a number of bits between zero and its width. -/
def rotateLeft (w : UInt32) (k : UInt32) : UInt32 := (w <<< k) ||| (w >>> (32 - k))

/-- Mixes the four words at the given positions. -/
def quarterRound (s : State) (ia ib ic id : Fin 16) : State :=
  let a := s.get ia + s.get ib
  let d := rotateLeft (s.get id ^^^ a) 16
  let c := s.get ic + d
  let b := rotateLeft (s.get ib ^^^ c) 12
  let a := a + b
  let d := rotateLeft (d ^^^ a) 8
  let c := c + d
  let b := rotateLeft (b ^^^ c) 7
  (((s.set ia a).set ib b).set ic c).set id d

/-- A round on the columns followed by a round on the diagonals. -/
def doubleRound (s : State) : State :=
  let s := quarterRound s 0 4 8 12
  let s := quarterRound s 1 5 9 13
  let s := quarterRound s 2 6 10 14
  let s := quarterRound s 3 7 11 15
  let s := quarterRound s 0 5 10 15
  let s := quarterRound s 1 6 11 12
  let s := quarterRound s 2 7 8 13
  quarterRound s 3 4 9 14

/-- The words before the first round. -/
def initialState (key : Vector UInt32 8) (counter : UInt64) : State :=
  #v[0x61707865, 0x3320646e, 0x79622d32, 0x6b206574,
    key[0], key[1], key[2], key[3], key[4], key[5], key[6], key[7],
    counter.toUInt32, (counter >>> 32).toUInt32, 0, 0]

/-- The output block with the given number. -/
def block (key : Vector UInt32 8) (counter : UInt64) : State :=
  let start := initialState key counter
  let mixed := Nat.repeat doubleRound 6 start
  Vector.zipWith (· + ·) mixed start

end AdaptivePopulation.Random
