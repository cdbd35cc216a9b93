/-!
# Seeded random numbers

A generator with four 64-bit words of state. Each draw mixes the state by shifts, rotations and
exclusive or; a number below a bound is the high half of a product of the draw with the bound,
and draws that would favour some numbers are rejected.
-/

namespace GraphStore.Workload

/-- The state of a random generator. -/
structure Random where
  s0 : UInt64
  s1 : UInt64
  s2 : UInt64
  s3 : UInt64
  deriving DecidableEq, Repr, Inhabited

namespace Random

/-- Rotates a word to the left. -/
def rotateLeft (x count : UInt64) : UInt64 := (x <<< count) ||| (x >>> (64 - count))

/-- One step of the generator that spreads a seed: the new seed and 32 bits of it. -/
def spread (seed : UInt64) : UInt64 × UInt64 :=
  let seed := seed * 6364136223846793005 + 11634580027462260723
  let mixed := (((seed >>> 18) ^^^ seed) >>> 27).toUInt32
  let turn := (seed >>> 59).toUInt32
  let rotated := (mixed >>> turn) ||| (mixed <<< ((32 - turn) % 32))
  (seed, rotated.toUInt64)

/-- Two steps of the spreading generator make a word, the low half first. -/
def spreadWord (seed : UInt64) : UInt64 × UInt64 :=
  let (seed, low) := spread seed
  let (seed, high) := spread seed
  (seed, low ||| (high <<< 32))

/-- The generator of a seed. -/
def ofSeed (seed : UInt64) : Random :=
  let (seed, s0) := spreadWord seed
  let (seed, s1) := spreadWord seed
  let (seed, s2) := spreadWord seed
  let (_, s3) := spreadWord seed
  { s0, s1, s2, s3 }

/-- A draw of 64 bits. -/
def next (r : Random) : Random × UInt64 :=
  let result := rotateLeft (r.s0 + r.s3) 23 + r.s0
  let s2 := r.s2 ^^^ r.s0
  let s3 := r.s3 ^^^ r.s1
  ({ s0 := r.s0 ^^^ s3
     s1 := r.s1 ^^^ s2
     s2 := s2 ^^^ (r.s1 <<< 17)
     s3 := rotateLeft s3 45 }, result)

/-- The greatest low half that is accepted: the bound shifted until its top bit is set, less
one. -/
def zone (bound : Nat) : Nat := bound * Nat.pow 2 (63 - bound.log2) - 1

/-- Draws until the low half of the product is accepted. -/
def draw (bound : Nat) : (attempts : Nat) → Random → Random × Nat
  | 0, r => (r, 0)
  | attempts + 1, r =>
    let (r, v) := r.next
    let product := v.toNat * bound
    if product % 0x10000000000000000 ≤ zone bound then (r, product / 0x10000000000000000) else draw bound attempts r

/-- A number below a bound. Less than half of the draws are rejected, so that many attempts do
not fail in practice. -/
def below (bound : Nat) (r : Random) : Random × Nat := r.draw bound 1000

end Random

end GraphStore.Workload
