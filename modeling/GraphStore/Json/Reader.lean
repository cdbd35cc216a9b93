import GraphStore.Json.Basic
import GraphStore.Number.Rounding
import GraphStore.Encoding.Utf8

/-!
# Strict JSON reader

A document is one value with blanks around its tokens and nothing after it. Refused are leading
zeros, a plus sign, trailing commas, raw control characters in strings, lone surrogate escapes,
numbers that round to infinity, and arrays or objects nested more than 127 deep.

A literal with a fraction or an exponent is read as the double nearest to it. Every result about rows
with finite doubles assumes this exactness of the reader: with one that rounds more than once, a
finite double need not read back from the literal that is written for it.

A reader takes the characters to come and gives a value with the characters after it. Nesting
recurses on the depth that is left, a sequence on a bound for its length. How a member of an
object is read is left open, given the reader of values one level deeper: a document read in full
reads it strictly.
-/

namespace GraphStore.Json

/-- Reads one thing from the front of a text. -/
abbrev Reader (α : Type) := List Char → Option (α × List Char)

/-- Arrays and objects nest at most this deep. -/
def maxDepth : Nat := 127

/-- Drops leading blanks. -/
def skipBlanks (cs : List Char) : List Char :=
  cs.dropWhile fun c => c = ' ' || c = '\n' || c = '\r' || c = '\t'

/-- The number that a list of decimal digits spells. -/
def digitsValue (digits : List Char) : Nat :=
  digits.foldl (fun n c => n * 10 + (c.toNat - '0'.toNat)) 0

/-- The fraction digits after a decimal point; none are there without a point, and at least one
stands after it. -/
def readFraction : Reader (Option (List Char))
  | '.' :: cs =>
    match cs.span Char.isDigit with
    | ([], _) => none
    | (digits, rest) => some (some digits, rest)
  | cs => some (none, cs)

/-- The signed digits of an exponent, at least one. -/
def readExponentDigits (negative : Bool) (cs : List Char) : Option (Option Int × List Char) :=
  match cs.span Char.isDigit with
  | ([], _) => none
  | (digits, rest) =>
    let value : Int := digitsValue digits
    some (some (if negative then -value else value), rest)

/-- The exponent, if there is one. -/
def readExponent : Reader (Option Int)
  | e :: cs =>
    if e = 'e' || e = 'E' then
      match cs with
      | '-' :: rest => readExponentDigits true rest
      | '+' :: rest => readExponentDigits false rest
      | _ => readExponentDigits false cs
    else some (none, e :: cs)
  | [] => some (none, [])

/-- The value of a number literal; none when it rounds to infinity. Minus zero is a double. -/
def numberValue (negative : Bool) (whole : List Char) (fraction : Option (List Char))
    (exponent : Option Int) : Option Json :=
  match fraction, exponent with
  | none, none =>
    let magnitude := digitsValue whole
    let value : Int := if negative then -(magnitude : Int) else magnitude
    if minInt ≤ value && value ≤ maxInt && !(negative && magnitude = 0) then some (int value)
    else (Double.ofDecimal? negative magnitude 0).map float
  | _, _ =>
    let digits := fraction.getD []
    (Double.ofDecimal? negative (digitsValue (whole ++ digits))
      (exponent.getD 0 - digits.length)).map float

/-- Reads a number after its sign. -/
def readUnsigned (negative : Bool) : Reader Json := fun cs =>
  match cs.span Char.isDigit with
  | ([], _) => none
  | ('0' :: _ :: _, _) => none
  | (whole, rest) => do
    let (fraction, rest) ← readFraction rest
    let (exponent, rest) ← readExponent rest
    let value ← numberValue negative whole fraction exponent
    some (value, rest)

/-- Reads a number. -/
def readNumber : Reader Json
  | '-' :: cs => readUnsigned true cs
  | cs => readUnsigned false cs

/-- The value of a hexadecimal digit, in either case. -/
def hexDigit? (c : Char) : Option Nat :=
  if '0' ≤ c ∧ c ≤ '9' then some (c.toNat - '0'.toNat)
  else if 'a' ≤ c ∧ c ≤ 'f' then some (c.toNat - 'a'.toNat + 10)
  else if 'A' ≤ c ∧ c ≤ 'F' then some (c.toNat - 'A'.toNat + 10)
  else none

/-- The 16-bit unit spelled by four hexadecimal digits. -/
def hexUnit? (a b c d : Char) : Option Nat := do
  let a ← hexDigit? a
  let b ← hexDigit? b
  let c ← hexDigit? c
  let d ← hexDigit? d
  some (((a * 16 + b) * 16 + c) * 16 + d)

/-- The character that a one-letter escape stands for. -/
def escaped? : Char → Option Char
  | '"' => some '"'
  | '\\' => some '\\'
  | '/' => some '/'
  | 'b' => some '\x08'
  | 'f' => some '\x0c'
  | 'n' => some '\n'
  | 'r' => some '\r'
  | 't' => some '\t'
  | _ => none

/-- Reads the characters of a string up to its closing quote. A high surrogate escape takes the
low surrogate escape that follows it; a surrogate alone is refused. -/
def readChars : Reader (List Char)
  | '"' :: rest => some ([], rest)
  | '\\' :: 'u' :: a :: b :: c :: d :: rest =>
    match hexUnit? a b c d with
    | none => none
    | some unit =>
      if 0xDC00 ≤ unit ∧ unit ≤ 0xDFFF then none
      else if 0xD800 ≤ unit ∧ unit ≤ 0xDBFF then
        match rest with
        | '\\' :: 'u' :: a :: b :: c :: d :: rest =>
          match hexUnit? a b c d with
          | none => none
          | some low =>
            if 0xDC00 ≤ low ∧ low ≤ 0xDFFF then
              match readChars rest with
              | none => none
              | some (cs, rest) =>
                some (Char.ofNat (0x10000 + (unit - 0xD800) * 0x400 + (low - 0xDC00)) :: cs, rest)
            else none
        | _ => none
      else
        match readChars rest with
        | none => none
        | some (cs, rest) => some (Char.ofNat unit :: cs, rest)
  | '\\' :: c :: rest =>
    match escaped? c, readChars rest with
    | some c, some (cs, rest) => some (c :: cs, rest)
    | _, _ => none
  | c :: rest =>
    if c.toNat < 0x20 || c = '\\' then none
    else
      match readChars rest with
      | none => none
      | some (cs, rest) => some (c :: cs, rest)
  | [] => none

/-- Reads the items of an array up to its closing bracket; at least one is there. -/
def readItems (item : Reader Json) : (bound : Nat) → Reader (List Json)
  | 0, _ => none
  | bound + 1, cs => do
    let (value, cs) ← item cs
    match skipBlanks cs with
    | ',' :: rest =>
      let (values, rest) ← readItems item bound rest
      some (value :: values, rest)
    | ']' :: rest => some ([value], rest)
    | _ => none

/-- Reads a member of an object. -/
def readMember (item : Reader Json) : Reader (String × Json) := fun cs =>
  match skipBlanks cs with
  | '"' :: cs => do
    let (name, cs) ← readChars cs
    match skipBlanks cs with
    | ':' :: cs =>
      let (value, cs) ← item cs
      some ((String.ofList name, value), cs)
    | _ => none
  | _ => none

/-- Reads the members of an object up to its closing brace; at least one is there. -/
def readMembers (member : Reader (String × Json)) :
    (bound : Nat) → Reader (List (String × Json))
  | 0, _ => none
  | bound + 1, cs => do
    let (pair, cs) ← member cs
    match skipBlanks cs with
    | ',' :: rest =>
      let (pairs, rest) ← readMembers member bound rest
      some (pair :: pairs, rest)
    | '}' :: rest => some ([pair], rest)
    | _ => none

/-- Reads a value that is no array or object. -/
def readScalar : Reader Json
  | 'n' :: 'u' :: 'l' :: 'l' :: rest => some (null, rest)
  | 't' :: 'r' :: 'u' :: 'e' :: rest => some (bool true, rest)
  | 'f' :: 'a' :: 'l' :: 's' :: 'e' :: rest => some (bool false, rest)
  | '"' :: rest => (readChars rest).map fun (cs, rest) => (str (String.ofList cs), rest)
  | cs => readNumber cs

/-- Reads a value that nests at most `depth` deep, from a text of at most `bound` characters. -/
def readValue (member : Reader Json → Reader (String × Json)) (bound : Nat) :
    (depth : Nat) → Reader Json
  | 0, cs => readScalar (skipBlanks cs)
  | depth + 1, cs =>
    match skipBlanks cs with
    | '[' :: rest =>
      match skipBlanks rest with
      | ']' :: rest => some (arr [], rest)
      | _ => (readItems (readValue member bound depth) bound rest).map fun (items, rest) =>
          (arr items, rest)
    | '{' :: rest =>
      match skipBlanks rest with
      | '}' :: rest => some (obj [], rest)
      | _ => (readMembers (member (readValue member bound depth)) bound rest).map
          fun (members, rest) => (obj members, rest)
    | cs => readScalar cs

/-- The value of a document whose members are read in a given way. -/
def parseWith? (member : Reader Json → Reader (String × Json)) (text : List Char) :
    Option Json :=
  match readValue member text.length maxDepth text with
  | some (value, rest) => if skipBlanks rest = [] then some value else none
  | none => none

/-- The value of a document. -/
def parse? : List Char → Option Json := parseWith? readMember

/-- The value of a document in UTF-8. -/
def ofBytes? (bytes : Bytes) : Option Json :=
  (Utf8.decode? bytes).bind parse?

end GraphStore.Json
