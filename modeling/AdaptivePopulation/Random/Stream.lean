import AdaptivePopulation.Random.ChaCha
import AdaptivePopulation.Scalar

/-!
# Random streams

A reproducible stream of 64-bit draws.  The draw at a position is determined by the key, so a stream
is its key and the number of draws already taken; the words of the current block are kept beside
them and are always those that the position calls for.
-/

namespace AdaptivePopulation

namespace Random

/-- The first `k` key words that a seed expands to. -/
def expandSeed (seed : UInt64) : Nat → List UInt32
  | 0 => []
  | k + 1 =>
    let state := seed * 6364136223846793005 + 11634580027462260723
    let mixed := (((state >>> 18) ^^^ state) >>> 27).toUInt32
    let turn := (state >>> 59).toUInt32
    ((mixed >>> turn) ||| (mixed <<< ((32 - turn) % 32))) :: expandSeed state k

/-- The key of a seed. -/
def keyOfSeed (seed : UInt64) : Vector UInt32 8 := ⟨(expandSeed seed 8).toArray, rfl⟩

/-- The block that holds the draw at a position; eight draws make a block. -/
def blockAt (key : Vector UInt32 8) (position : Nat) : State :=
  block key (UInt64.ofNat (position / 8))

/-- The draw at a position of a block: two words, the low one first. -/
def drawIn (words : State) (position : Nat) : UInt64 :=
  let low := words[2 * (position % 8)]
  let high := words[2 * (position % 8) + 1]
  low.toUInt64 ||| (high.toUInt64 <<< 32)

end Random

/-- A stream of draws, after `position` of them. -/
structure RandomStream where
  key : Vector UInt32 8
  /-- The number of draws taken so far. -/
  position : Nat
  words : Random.State
  words_eq : words = Random.blockAt key position

namespace RandomStream

open AdaptivePopulation.Random

/-- The stream of a key after a number of draws. -/
def after (key : Vector UInt32 8) (position : Nat) : RandomStream :=
  ⟨key, position, blockAt key position, rfl⟩

/-- The stream of a seed before its first draw. -/
def ofSeed (seed : UInt64) : RandomStream := after (keyOfSeed seed) 0

theorem blockAt_succ (key : Vector UInt32 8) (position : Nat) (h : (position + 1) % 8 ≠ 0) :
    blockAt key (position + 1) = blockAt key position := by
  have : (position + 1) / 8 = position / 8 := by omega
  simp [blockAt, this]

/-- The stream after one more draw; a new block is computed only when the current one is used up. -/
def advance (g : RandomStream) : RandomStream :=
  if h : (g.position + 1) % 8 = 0 then after g.key (g.position + 1)
  else ⟨g.key, g.position + 1, g.words, by rw [blockAt_succ _ _ h, g.words_eq]⟩

/-- The next draw and the stream after it. -/
def next (g : RandomStream) : UInt64 × RandomStream := (drawIn g.words g.position, g.advance)

theorem eq_after (g : RandomStream) : g = after g.key g.position := by
  obtain ⟨key, position, words, rfl⟩ := g
  rfl

theorem advance_eq_after (g : RandomStream) : g.advance = after g.key (g.position + 1) := by
  unfold advance
  split
  · rfl
  · rw [eq_after ⟨_, _, _, _⟩]

/-- The next `k` draws, each seen through `f`, and the stream after them. -/
def draws {β : Type} (f : UInt64 → β) : Nat → RandomStream → List β × RandomStream
  | 0, g => ([], g)
  | k + 1, g =>
    let (word, g) := g.next
    let (rest, g) := draws f k g
    (f word :: rest, g)

theorem length_draws {β : Type} (f : UInt64 → β) (k : Nat) (g : RandomStream) :
    (draws f k g).1.length = k := by
  induction k generalizing g with
  | zero => rfl
  | succ k ih => simp [draws, ih]

theorem draws_snd {β : Type} (f : UInt64 → β) (k : Nat) (g : RandomStream) :
    (draws f k g).2 = after g.key (g.position + k) := by
  induction k generalizing g with
  | zero => exact eq_after g
  | succ k ih =>
    simp only [draws, next, ih, advance_eq_after]
    simp [after, Nat.add_assoc, Nat.add_comm 1 k]

end RandomStream

namespace Random

variable {α : Type} [Scalar α]

/-- A draw as a fraction in `[0, 1)`: its upper 53 bits over `2 ^ 53`. -/
def unitFraction (word : UInt64) : α :=
  Scalar.ofNat (word >>> 11).toNat / 9007199254740992.0

/-- A draw as a value in `[-1, 1]`: its upper 52 bits over `2 ^ 52`, stretched by the least double
above two so that both ends are reached, and shifted. -/
def signedFraction (word : UInt64) : α :=
  Scalar.ofNat (word >>> 12).toNat / 4503599627370496.0 * 2.0000000000000004 + (-1.0)

end Random

end AdaptivePopulation
