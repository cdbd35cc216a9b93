import GraphStore.Number.Rounding

/-!
# Decimal text of doubles

A finite double is written with the fewest significant digits that read back as it, and of
those with the digits nearest to it (the even ones on a tie). For each digit count the only
candidates are the two neighbours on that decimal grid. Seventeen digits always suffice; the
exact expansion stands behind them.

Reading back means reading by `decimalBits`, which goes to the nearest double. That a reader of
documents does the same is an assumption, and not a property of this text: a reader that rounds more
than once, such as one that divides by a power of ten, may take `9.899999999999999` for `9.9`.
-/

namespace GraphStore.Double

/-- The number `digits * 10 ^ exponent`. -/
structure Decimal where
  digits : Nat
  exponent : Int
  deriving DecidableEq, Repr

/-- Exponent of the leading decimal digit of a positive number of units. -/
def leadingExponent (units : Nat) : Int :=
  let whole := units / Nat.pow 2 1074
  if 0 < whole then (Nat.toDigits 10 whole).length - 1
  else -((Nat.toDigits 10 ((Nat.pow 2 1074 + units - 1) / units - 1)).length : Int)

/-- A decimal that reads back as the given pattern. -/
def readsBack (magnitude : Nat) (d : Decimal) : Bool :=
  decimalBits d.digits d.exponent = magnitude

/-- The neighbour of the number with `count` digits that reads back as it: the nearer one when
both do, the even one when they are equally near. -/
def neighbour? (magnitude count : Nat) : Option Decimal :=
  let exponent := leadingExponent (units magnitude) - count + 1
  let num := units magnitude * Nat.pow 10 (-exponent).toNat
  let den := Nat.pow 2 1074 * Nat.pow 10 exponent.toNat
  let low : Decimal := ⟨num / den, exponent⟩
  let high : Decimal := ⟨num / den + 1, exponent⟩
  let distance := 2 * (num % den)
  let lowNearer := distance < den ∨ (distance = den ∧ low.digits % 2 = 0)
  if readsBack magnitude low && (lowNearer || !readsBack magnitude high) then some low
  else if readsBack magnitude high then some high
  else none

/-- The shortest decimal of a finite positive pattern. -/
def shortest (magnitude : Nat) : Decimal :=
  ((List.range 17).findSome? fun n => neighbour? magnitude (n + 1)).getD
    ⟨units magnitude * Nat.pow 5 1074, -1074⟩

/-- Significant digits without trailing zeros, and the place of the decimal point counted from
the first of them. -/
def significant (d : Decimal) : List Char × Int :=
  let all := Nat.toDigits 10 d.digits
  ((all.reverse.dropWhile (· == '0')).reverse, all.length + d.exponent)

/-- The text of a finite double. From `0.00001` up to sixteen integer digits it is positional
with at least one decimal; outside it has an exponent with an explicit sign. -/
def text (d : Double) : List Char :=
  let sign := if d.negative then ['-'] else []
  if d.isZero then sign ++ ['0', '.', '0']
  else
    let (digits, point) := significant (shortest d.magnitude)
    let count : Int := digits.length
    let zeros (n : Int) : List Char := List.replicate n.toNat '0'
    if 0 < point ∧ point ≤ 16 then
      if count ≤ point then sign ++ digits ++ zeros (point - count) ++ ['.', '0']
      else sign ++ digits.take point.toNat ++ '.' :: digits.drop point.toNat
    else if -5 < point ∧ point ≤ 0 then
      sign ++ '0' :: '.' :: zeros (-point) ++ digits
    else
      let exponent := point - 1
      let fraction := if digits.length ≤ 1 then [] else '.' :: digits.drop 1
      sign ++ digits.take 1 ++ fraction ++
        'e' :: (if exponent < 0 then '-' else '+') :: Nat.toDigits 10 exponent.natAbs

end GraphStore.Double
