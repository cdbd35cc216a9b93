import GraphStore.Number.Rounding

/-!
# Arithmetic on doubles

Sum, difference, product and quotient are the IEEE-754 operations. The remainder is exact: it is
taken on the scaled integers, and its sign is that of the dividend.
-/

namespace GraphStore.Double

/-- The floating-point number with this pattern. -/
def toFloat (d : Double) : Float := Float.ofBits d.bits

/-- The pattern of a floating-point number. -/
def ofFloat (x : Float) : Double := ⟨x.toBits⟩

/-- IEEE-754 sum. -/
def add (a b : Double) : Double := ofFloat (a.toFloat + b.toFloat)

/-- IEEE-754 difference. -/
def sub (a b : Double) : Double := ofFloat (a.toFloat - b.toFloat)

/-- IEEE-754 product. -/
def mul (a b : Double) : Double := ofFloat (a.toFloat * b.toFloat)

/-- IEEE-754 quotient. -/
def div (a b : Double) : Double := ofFloat (a.toFloat / b.toFloat)

/-- Remainder of division toward zero. It is a multiple of the unit below the divisor, hence a
double; an infinite divisor leaves the dividend as it is. -/
def rem (a b : Double) : Double :=
  if a.isNaN || b.isNaN || !a.isFinite || b.isZero then nan
  else if !b.isFinite then a
  else ofMagnitude a.negative (nearestBits (units a.magnitude % units b.magnitude) 1)

end GraphStore.Double
