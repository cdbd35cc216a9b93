import GraphStore.Json.Reader

/-!
# Documents read by record

A record passes over the members it does not know. Such a value has to be well-formed and no
more: its numbers may be of any size, its strings may hold surrogate escapes alone, and it may
nest without limit. So a member whose value cannot be read is kept as unreadable when passing
over it succeeds, and only a record that wants this member fails.

Passing over a value keeps the enclosures that are still open in a list, so it needs no depth.
-/

namespace GraphStore.Json

/-- Passes over the characters of a string up to its closing quote. -/
def skipChars : List Char → Option (List Char)
  | '"' :: rest => some rest
  | '\\' :: 'u' :: a :: b :: c :: d :: rest =>
    if (hexUnit? a b c d).isSome then skipChars rest else none
  | '\\' :: c :: rest => if (escaped? c).isSome then skipChars rest else none
  | c :: rest => if c.toNat < 0x20 || c = '\\' then none else skipChars rest
  | [] => none

/-- Passes over a number after its sign. -/
def skipUnsigned (cs : List Char) : Option (List Char) :=
  match cs.span Char.isDigit with
  | ([], _) => none
  | ('0' :: _ :: _, _) => none
  | (_, rest) => do
    let (_, rest) ← readFraction rest
    let (_, rest) ← readExponent rest
    some rest

/-- Passes over a value that is no array or object. -/
def skipScalar : List Char → Option (List Char)
  | 'n' :: 'u' :: 'l' :: 'l' :: rest => some rest
  | 't' :: 'r' :: 'u' :: 'e' :: rest => some rest
  | 'f' :: 'a' :: 'l' :: 's' :: 'e' :: rest => some rest
  | '"' :: rest => skipChars rest
  | '-' :: rest => skipUnsigned rest
  | cs => skipUnsigned cs

/-- Passes over the name of a member and the colon after it. -/
def skipName (cs : List Char) : Option (List Char) :=
  match skipBlanks cs with
  | '"' :: cs => do
    match skipBlanks (← skipChars cs) with
    | ':' :: rest => some rest
    | _ => none
  | _ => none

/-- What a value may stand in. -/
inductive Enclosure where
  | array
  | object
  deriving DecidableEq, Repr, Inhabited

mutual

/-- Passes over a value and all that follows it up to the end of the open enclosures. -/
def skipFrom : (bound : Nat) → (within : List Enclosure) → List Char → Option (List Char)
  | 0, _, _ => none
  | bound + 1, within, cs =>
    match skipBlanks cs with
    | '[' :: rest =>
      match skipBlanks rest with
      | ']' :: rest => skipOut bound within rest
      | _ => skipFrom bound (.array :: within) rest
    | '{' :: rest =>
      match skipBlanks rest with
      | '}' :: rest => skipOut bound within rest
      | _ =>
        match skipName rest with
        | some rest => skipFrom bound (.object :: within) rest
        | none => none
    | cs =>
      match skipScalar cs with
      | some rest => skipOut bound within rest
      | none => none

/-- Passes over all that follows a value up to the end of the open enclosures. -/
def skipOut : (bound : Nat) → (within : List Enclosure) → List Char → Option (List Char)
  | _, [], cs => some cs
  | 0, _ :: _, _ => none
  | bound + 1, .array :: within, cs =>
    match skipBlanks cs with
    | ',' :: rest => skipFrom bound (.array :: within) rest
    | ']' :: rest => skipOut bound within rest
    | _ => none
  | bound + 1, .object :: within, cs =>
    match skipBlanks cs with
    | ',' :: rest =>
      match skipName rest with
      | some rest => skipFrom bound (.object :: within) rest
      | none => none
    | '}' :: rest => skipOut bound within rest
    | _ => none

end

/-- Passes over a value. Each step takes a character, so the length is a bound for them. -/
def skipValue (cs : List Char) : Option (List Char) := skipFrom cs.length [] cs

/-- The name of a member, given the text that begins with it and the characters that it spells. A
name that is a number has to be spelled as it is: with escapes it keeps a backslash in front, and
no map by number takes it. -/
def memberName (written name : List Char) : String :=
  let numeric := name.head?.any fun c => c.isDigit || c = '-'
  if numeric && written.takeWhile (· ≠ '"') ≠ name then String.ofList ('\\' :: name)
  else String.ofList name

/-- Reads a member of an object, whose value need only be well-formed. -/
def readKeptMember (item : Reader Json) : Reader (String × Json) := fun cs =>
  match skipBlanks cs with
  | '"' :: cs => do
    let (name, rest) ← readChars cs
    match skipBlanks rest with
    | ':' :: rest =>
      match item rest with
      | some (value, rest) => some ((memberName cs name, value), rest)
      | none => (skipValue rest).map fun rest => ((memberName cs name, unreadable), rest)
    | _ => none
  | _ => none

/-- The value of a document that holds a record. -/
def parseRecord? : List Char → Option Json := parseWith? readKeptMember

end GraphStore.Json
