import GraphStore.Text.Blank

/-!
# Spans of time

A span is written as a sum of numbers with units, such as `1h 30m`, or as zero alone. Blanks may
stand before a number, inside it, and after a unit; a unit ends at a blank or at the next number.
A number may have a fraction, which has to come to whole seconds from the hour on and to whole
nanoseconds below it. Every amount is reckoned in 64-bit words, and what does not fit is refused.
-/

namespace GraphStore.Workload

/-- A span of time in nanoseconds. -/
structure Duration where
  nanos : Nat
  deriving DecidableEq, Repr, Inhabited

namespace Duration

/-- Nanoseconds in a second. -/
def second : Nat := 1000000000

/-- A unit of time. -/
structure TimeUnit where
  /-- How many steps make one unit. -/
  steps : Nat
  /-- Nanoseconds in a step of a whole number of units. -/
  step : Nat
  /-- Nanoseconds in a step of a fraction of a unit; the least unit has none. -/
  fractionStep : Option Nat
  deriving DecidableEq, Repr, Inhabited

/-- A unit of some seconds, the fractions of which are counted in steps of some nanoseconds. -/
def TimeUnit.ofSeconds (seconds fractionStep : Nat) : TimeUnit :=
  { steps := seconds, step := second, fractionStep := some fractionStep }

/-- The unit of this name. A month is a twelfth of a year of 365.25 days, to the second. -/
def unit? (name : String) : Option TimeUnit :=
  if name ∈ ["nanos", "nsec", "ns"] then some ⟨1, 1, none⟩
  else if name ∈ ["usec", "us", "µs"] then some ⟨1000, 1, some 1⟩
  else if name ∈ ["millis", "msec", "ms"] then some ⟨1000000, 1, some 1⟩
  else if name ∈ ["seconds", "second", "secs", "sec", "s"] then some (.ofSeconds 1 1)
  else if name ∈ ["minutes", "minute", "min", "mins", "m"] then some (.ofSeconds 60 1)
  else if name ∈ ["hours", "hour", "hrs", "hr", "h"] then some (.ofSeconds 3600 second)
  else if name ∈ ["days", "day", "d"] then some (.ofSeconds 86400 second)
  else if name ∈ ["weeks", "week", "wks", "wk", "w"] then some (.ofSeconds 604800 second)
  else if name ∈ ["months", "month", "M"] then some (.ofSeconds 2630016 second)
  else if name ∈ ["years", "year", "yrs", "yr", "y"] then some (.ofSeconds 31557600 second)
  else none

/-- Whether a character belongs to a number or to the blanks inside it. -/
def numeric (c : Char) : Bool := c.isDigit || Text.isBlank c

/-- Whether a character belongs to the name of a unit. -/
def unitLetter (c : Char) : Bool := c.isAlpha || c = 'µ'

/-- The value of digits. -/
def value (digits : List Char) : Nat :=
  digits.foldl (fun n c => n * 10 + (c.toNat - '0'.toNat)) 0

/-- A number that fits into a word. -/
def fitted? (n : Nat) : Option Nat := if n < 0x10000000000000000 then some n else none

/-- Adds nanoseconds to a span. The nanoseconds beyond its seconds fit into a word, and so do its
seconds. -/
def add? (total nanos : Nat) (wholeSeconds : Bool) : Option Nat := do
  if !wholeSeconds then let _ ← fitted? (total % second + nanos)
  let _ ← fitted? ((total + nanos) / second)
  some (total + nanos)

/-- Adds whole units to a span. -/
def addWhole? (total count : Nat) (unit : TimeUnit) : Option Nat := do
  let steps ← fitted? (count * unit.steps)
  add? total (steps * unit.step) (unit.step = second)

/-- Adds the fraction of a unit given by the digits after the point. It is refused, never rounded,
where it ends inside a step. -/
def addFraction? (total : Nat) (digits : List Char) (unit : TimeUnit) : Option Nat := do
  let step ← unit.fractionStep
  let scale ← fitted? (Nat.pow 10 digits.length)
  let steps ← fitted? (value digits * (unit.steps * unit.step / step))
  if steps % scale = 0 then add? total (steps / scale * step) (step = second) else none

/-- Splits off the digits of a number, dropping the blanks among them. -/
def splitDigits (text : List Char) : List Char × List Char :=
  ((text.takeWhile numeric).filter Char.isDigit, text.dropWhile numeric)

/-- Splits off the digits of a fraction, if there is one; it has at least one digit. -/
def splitFraction : List Char → Option (Option (List Char) × List Char)
  | '.' :: text =>
    match splitDigits text with
    | ([], _) => none
    | (digits, rest) => some (some digits, rest)
  | text => some (none, text)

/-- Adds numbers with units to a span. Each takes at least one character, so the length is fuel
enough. -/
def sum : (fuel total : Nat) → List Char → Option Nat
  | 0, _, _ => none
  | fuel + 1, total, text =>
    match text.dropWhile Text.isBlank with
    | [] => some total
    | c :: rest =>
      if !c.isDigit then none
      else do
        let (digits, rest) := splitDigits (c :: rest)
        let count ← fitted? (value digits)
        let (fraction, rest) ← splitFraction rest
        let unit ← unit? (String.ofList (rest.takeWhile unitLetter))
        let total ← addWhole? total count unit
        let total ← match fraction with
          | some digits => addFraction? total digits unit
          | none => some total
        sum fuel total (rest.dropWhile unitLetter)

/-- Reads a span; but for zero alone it has at least one number with a unit. -/
def ofString? (text : String) : Option Duration :=
  if text = "0" then some { nanos := 0 }
  else if text.toList.all Text.isBlank then none
  else (sum (text.length + 1) 0 text.toList).map fun nanos => { nanos }

/-- Whole milliseconds, in 64 bits. -/
def millis (d : Duration) : Nat := d.nanos / 1000000 % 0x10000000000000000

end Duration

end GraphStore.Workload
