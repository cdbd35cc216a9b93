/-!
# Doubles by their bit pattern

A double is its 64-bit IEEE-754 pattern, so that NaN payloads and the sign of zero are values
like any other. Every pattern but NaN denotes an integer multiple of `2 ^ -1074`, the least
positive double; `scaled` is that integer, with the infinities just above and below all finite
doubles. Numeric order is the order of `scaled`; `orderKey` is the total order of the patterns.
-/

namespace GraphStore

/-- A double, as its 64-bit pattern. -/
structure Double where
  bits : UInt64
  deriving DecidableEq, Repr, Inhabited

namespace Double

/-- The pattern of positive infinity. -/
def infinityBits : Nat := 0x7ff0000000000000

/-- The sign bit. -/
def negative (d : Double) : Bool := 0x8000000000000000 ≤ d.bits.toNat

/-- The pattern without its sign. -/
def magnitude (d : Double) : Nat := d.bits.toNat % 0x8000000000000000

/-- Whether the pattern is one of the NaNs. -/
def isNaN (d : Double) : Bool := infinityBits < d.magnitude

/-- Neither infinite nor NaN. -/
def isFinite (d : Double) : Bool := d.magnitude < infinityBits

/-- Positive or negative zero. -/
def isZero (d : Double) : Bool := d.magnitude = 0

/-- The double of a sign and a pattern without sign. -/
def ofMagnitude (negative : Bool) (magnitude : Nat) : Double :=
  ⟨UInt64.ofNat (if negative then 0x8000000000000000 + magnitude else magnitude)⟩

/-- The NaN that arithmetic produces. -/
def nan : Double := ofMagnitude false (infinityBits + 0x8000000000000)

/-- Multiples of `2 ^ -1074` in the number with this pattern. -/
def units (magnitude : Nat) : Nat :=
  let exponent := magnitude / 0x10000000000000
  let fraction := magnitude % 0x10000000000000
  if exponent = 0 then fraction else (0x10000000000000 + fraction) * Nat.pow 2 (exponent - 1)

/-- The number times `2 ^ 1074`, exactly. -/
def scaled (d : Double) : Int :=
  if d.negative then -(units d.magnitude : Int) else units d.magnitude

/-- Numeric order; none when either side is NaN. Both zeros are equal. -/
def compare? (a b : Double) : Option Ordering :=
  if a.isNaN || b.isNaN then none else some (compare a.scaled b.scaled)

/-- Place of the pattern in the total order: negative patterns reversed below positive ones. -/
def orderKey (d : Double) : Nat :=
  if d.negative then 0xffffffffffffffff - d.bits.toNat else d.bits.toNat + 0x8000000000000000

/-- The pattern at a place of the total order. -/
def ofOrderKey (key : Nat) : Double :=
  ⟨UInt64.ofNat (if 0x8000000000000000 ≤ key then key - 0x8000000000000000 else 0xffffffffffffffff - key)⟩

/-- Every pattern is found again at its place. -/
theorem ofOrderKey_orderKey (d : Double) : ofOrderKey d.orderKey = d := by
  obtain ⟨bits⟩ := d
  have hb := bits.toNat_lt
  simp only [orderKey, ofOrderKey, negative, decide_eq_true_eq]
  congr 1
  apply UInt64.toNat_inj.1
  rw [UInt64.toNat_ofNat']
  split <;> split <;> omega

end Double

end GraphStore
