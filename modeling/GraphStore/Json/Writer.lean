import GraphStore.Json.Basic
import GraphStore.Number.Decimal
import GraphStore.Encoding.Utf8

/-!
# JSON text

Members in order, only the quote, the backslash and the control characters below U+0020 escaped.
A double that is not finite and a value that cannot be read are written as null. Compact text has no blanks; indented text has an
item or member a line, two blanks deeper than the brackets around it.
-/

namespace GraphStore.Json

/-- Decimal text of an integer. -/
def intText (i : Int) : List Char :=
  if i < 0 then '-' :: Nat.toDigits 10 i.natAbs else Nat.toDigits 10 i.natAbs

/-- A character inside a quoted string. -/
def escape (c : Char) : List Char :=
  if c = '"' then ['\\', '"']
  else if c = '\\' then ['\\', '\\']
  else if c = '\x08' then ['\\', 'b']
  else if c = '\t' then ['\\', 't']
  else if c = '\n' then ['\\', 'n']
  else if c = '\x0c' then ['\\', 'f']
  else if c = '\r' then ['\\', 'r']
  else if c.toNat < 0x20 then
    ['\\', 'u', '0', '0', Nat.digitChar (c.toNat / 16), Nat.digitChar (c.toNat % 16)]
  else [c]

/-- A quoted string. -/
def quoted (s : String) : List Char :=
  '"' :: s.toList.flatMap escape ++ ['"']

mutual

/-- The text of a value. -/
def text : Json → List Char
  | null => ['n', 'u', 'l', 'l']
  | bool true => ['t', 'r', 'u', 'e']
  | bool false => ['f', 'a', 'l', 's', 'e']
  | int i => intText i
  | float d => if d.isFinite then d.text else ['n', 'u', 'l', 'l']
  | str s => quoted s
  | arr [] => ['[', ']']
  | arr (item :: items) => '[' :: text item ++ itemsText items
  | obj [] => ['{', '}']
  | obj ((name, value) :: members) =>
    '{' :: quoted name ++ ':' :: text value ++ membersText members
  | unreadable => ['n', 'u', 'l', 'l']

/-- The rest of an array after its first item. -/
def itemsText : List Json → List Char
  | [] => [']']
  | item :: items => ',' :: text item ++ itemsText items

/-- The rest of an object after its first member. -/
def membersText : List (String × Json) → List Char
  | [] => ['}']
  | (name, value) :: members => ',' :: quoted name ++ ':' :: text value ++ membersText members

end

/-- A new line at a depth. -/
def newline (depth : Nat) : List Char := '\n' :: List.replicate (2 * depth) ' '

mutual

/-- The indented text of a value whose brackets are at a depth. -/
def indented (depth : Nat) : Json → List Char
  | arr (item :: items) =>
    '[' :: newline (depth + 1) ++ indented (depth + 1) item ++ indentedItems depth items
  | obj ((name, value) :: members) =>
    '{' :: newline (depth + 1) ++ quoted name ++ ':' :: ' ' :: indented (depth + 1) value ++
      indentedMembers depth members
  | j => text j

/-- The rest of an indented array after its first item. -/
def indentedItems (depth : Nat) : List Json → List Char
  | [] => newline depth ++ [']']
  | item :: items =>
    ',' :: newline (depth + 1) ++ indented (depth + 1) item ++ indentedItems depth items

/-- The rest of an indented object after its first member. -/
def indentedMembers (depth : Nat) : List (String × Json) → List Char
  | [] => newline depth ++ ['}']
  | (name, value) :: members =>
    ',' :: newline (depth + 1) ++ quoted name ++ ':' :: ' ' :: indented (depth + 1) value ++
      indentedMembers depth members

end

/-- The text of a value as a string. -/
def render (j : Json) : String := String.ofList j.text

/-- The UTF-8 bytes of the text of a value. -/
def toBytes (j : Json) : Bytes := Utf8.encode j.text

end GraphStore.Json
