/-!
# Blanks and unsigned numbers in settings

Settings are read from text: blanks at both ends do not count, and an unsigned number is a
non-empty run of decimal digits with at most one plus sign before it.
-/

namespace GraphStore.Text

/-- Whether a character is white space in Unicode. -/
def isBlank (c : Char) : Bool :=
  let v := c.toNat
  (0x9 ≤ v && v ≤ 0xD) || v = 0x20 || v = 0x85 || v = 0xA0 || v = 0x1680 ||
    (0x2000 ≤ v && v ≤ 0x200A) || v = 0x2028 || v = 0x2029 || v = 0x202F || v = 0x205F ||
    v = 0x3000

/-- A text without the blanks at its ends. -/
def trim (text : List Char) : List Char :=
  ((text.dropWhile isBlank).reverse.dropWhile isBlank).reverse

/-- Why a text is no unsigned number. -/
inductive NumberFault where
  | empty | invalidDigit | tooLarge
  deriving DecidableEq, Repr, Inhabited

/-- The fault in words. -/
def NumberFault.message : NumberFault → String
  | empty => "cannot parse integer from empty string"
  | invalidDigit => "invalid digit found in string"
  | tooLarge => "number too large to fit in target type"

/-- Reads digits onto `n`; the first fault from the left is the one reported. -/
def readDigits (limit : Nat) : (n : Nat) → List Char → Except NumberFault Nat
  | n, [] => .ok n
  | n, c :: cs =>
    if !c.isDigit then .error .invalidDigit
    else
      let next := n * 10 + (c.toNat - '0'.toNat)
      if limit < next then .error .tooLarge else readDigits limit next cs

/-- Reads an unsigned number of at most `limit`. -/
def readUnsigned (limit : Nat) : List Char → Except NumberFault Nat
  | [] => .error .empty
  | ['+'] => .error .invalidDigit
  | '+' :: cs => readDigits limit 0 cs
  | cs => readDigits limit 0 cs

end GraphStore.Text
