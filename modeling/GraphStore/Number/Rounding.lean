import GraphStore.Number.Double

/-!
# Rounding to the nearest double

A ratio of natural numbers, counted in units of `2 ^ -1074`, goes to the nearest double, a tie to
the one with the even pattern. Integers and decimal numbers are read through this one rule.
-/

namespace GraphStore.Double

/-- Pattern of the double nearest to `num / den` units, ties to even; infinity when the ratio
rounds above every finite double.

The quotient keeps its leading 53 bits; a carry out of them moves into the exponent by itself. -/
def nearestBits (num den : Nat) : Nat :=
  let dropped := (num / den).log2 - 52
  let step := den * Nat.pow 2 dropped
  let quotient := num / step
  let remainder := num % step
  let up := step < 2 * remainder ∨ (2 * remainder = step ∧ quotient % 2 = 1)
  min infinityBits (dropped * 0x10000000000000 + if up then quotient + 1 else quotient)

/-- The double nearest to an integer. -/
def ofInt (i : Int) : Double :=
  ofMagnitude (i < 0) (nearestBits (i.natAbs * Nat.pow 2 1074) 1)

/-- Pattern of the double nearest to `digits * 10 ^ exponent`. Far exponents are settled without
raising ten to them: they are beyond the largest double or below the least. -/
def decimalBits (digits : Nat) (exponent : Int) : Nat :=
  if digits = 0 then 0
  else if 400 < exponent then infinityBits
  else if exponent + (Nat.toDigits 10 digits).length < -400 then 0
  else if 0 ≤ exponent then nearestBits (digits * Nat.pow 10 exponent.toNat * Nat.pow 2 1074) 1
  else nearestBits (digits * Nat.pow 2 1074) (Nat.pow 10 (-exponent).toNat)

/-- The double nearest to a decimal number; none when it rounds to infinity. -/
def ofDecimal? (negative : Bool) (digits : Nat) (exponent : Int) : Option Double :=
  let magnitude := decimalBits digits exponent
  if magnitude < infinityBits then some (ofMagnitude negative magnitude) else none

end GraphStore.Double
