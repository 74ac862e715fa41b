/-!
# `VectorIndex.Random` — a reproducible source of draws

Levels are drawn at random. A generator is a key and a position in the keystream of ChaCha with 12 rounds,
so a draw is a function of both and a generator is an ordinary value.

## Contents
- **Seeds.** `Random.seedKey` stretches a seed to a key by a linear congruential generator whose output is
  shifted and rotated.
- **Blocks.** `Random.quarterRound`, `Random.doubleRound`, `Random.block`.
- **Draws.** `Generator`, `Generator.ofSeed`, `Generator.peek`, `Generator.next`.
-/

namespace VectorIndex
namespace Random

/-! ## Seeds -/

/-- `x` rotated right by `n` places. -/
def rotateRight (x n : UInt32) : UInt32 := x >>> (n % 32) ||| x <<< ((32 - n % 32) % 32)

/-- The next state of the seed generator. -/
def seedStep (state : UInt64) : UInt64 := state * 6364136223846793005 + 11634580027462260723

/-- The word that a state of the seed generator yields. -/
def seedWord (state : UInt64) : UInt32 :=
  rotateRight (((state >>> 18) ^^^ state) >>> 27).toUInt32 (state >>> 59).toUInt32

/-- The first `count` words of the seed generator. -/
def seedWords : Nat → UInt64 → List UInt32
  | 0, _ => []
  | count + 1, state => seedWord (seedStep state) :: seedWords count (seedStep state)

/-- The key for a seed. -/
def seedKey (seed : UInt64) : Vector UInt32 8 := Vector.ofFn fun i => (seedWords 8 seed)[i.val]?.getD 0

/-! ## Blocks -/

/-- The sixteen words that a block is computed from and holds. -/
abbrev Block := Vector UInt32 16

/-- `x` rotated left by `n` places, for `0 < n < 32`. -/
def rotateLeft (x n : UInt32) : UInt32 := x <<< n ||| x >>> (32 - n)

/-- Mixes four words of a block. -/
def quarterRound (x : Block) (a b c d : Fin 16) : Block :=
  let x := x.set a (x[a] + x[b])
  let x := x.set d (rotateLeft (x[d] ^^^ x[a]) 16)
  let x := x.set c (x[c] + x[d])
  let x := x.set b (rotateLeft (x[b] ^^^ x[c]) 12)
  let x := x.set a (x[a] + x[b])
  let x := x.set d (rotateLeft (x[d] ^^^ x[a]) 8)
  let x := x.set c (x[c] + x[d])
  x.set b (rotateLeft (x[b] ^^^ x[c]) 7)

/-- Mixes the columns, then the diagonals. -/
def doubleRound (x : Block) : Block :=
  let x := quarterRound x 0 4 8 12
  let x := quarterRound x 1 5 9 13
  let x := quarterRound x 2 6 10 14
  let x := quarterRound x 3 7 11 15
  let x := quarterRound x 0 5 10 15
  let x := quarterRound x 1 6 11 12
  let x := quarterRound x 2 7 8 13
  quarterRound x 3 4 9 14

/-- The block before mixing: constants, key, block number, and zeros. -/
def blockInput (key : Vector UInt32 8) (number : UInt64) : Block :=
  #v[0x61707865, 0x3320646e, 0x79622d32, 0x6b206574,
    key[0], key[1], key[2], key[3], key[4], key[5], key[6], key[7],
    number.toUInt32, (number >>> 32).toUInt32, 0, 0]

/-- A block of the keystream, twelve rounds. -/
def block (key : Vector UInt32 8) (number : UInt64) : Block :=
  let input := blockInput key number
  Vector.zipWith (· + ·) (Nat.repeat doubleRound 6 input) input

/-! ## Draws -/

/-- A place in the sequence of draws of a key. -/
structure Generator where
  key : Vector UInt32 8
  /-- How many draws were taken. -/
  position : Nat
deriving DecidableEq

namespace Generator

/-- The generator of a seed, before the first draw. -/
def ofSeed (seed : UInt64) : Generator := ⟨seedKey seed, 0⟩

/-- The next draw: two words of the keystream, the first one low. -/
def peek (g : Generator) : UInt64 :=
  let words := block g.key (UInt64.ofNat (g.position / 8))
  let low := words[2 * (g.position % 8)]
  let high := words[2 * (g.position % 8) + 1]
  low.toUInt64 ||| high.toUInt64 <<< 32

/-- The generator after the next draw. -/
def next (g : Generator) : Generator := { g with position := g.position + 1 }

/-- The next `count` draws. -/
def draws : Nat → Generator → List UInt64
  | 0, _ => []
  | count + 1, g => g.peek :: draws count g.next

end Generator

/-- The first draws of the seed 42. -/
example :
    Generator.draws 3 (Generator.ofSeed 42) =
      [0x86cc7763222724a2, 0x8af00a133fad517d, 0xa2ef6071de5134d1] := by
  decide +kernel

end Random
end VectorIndex
