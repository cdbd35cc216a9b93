import GraphStore.Encoding.Bytes

/-!
# UTF-8 text

Strings travel as UTF-8. A byte string is cut from the left into pieces: a character, or a
longest run of bytes that begins some character and cannot be continued. Strict reading needs
every piece to be a character; replacing reading writes U+FFFD for each broken piece.
-/

namespace GraphStore.Utf8

/-- The UTF-8 bytes of a list of characters. -/
def encode (text : List Char) : Bytes :=
  text.flatMap String.utf8EncodeChar

/-- The UTF-8 bytes of a string. -/
def ofString (s : String) : Bytes :=
  encode s.toList

/-- What a byte string begins with, and the bytes after it. -/
inductive Piece where
  | char (c : Char) (rest : Bytes)
  | broken (rest : Bytes)
  deriving Repr

/-- Reads `count` continuation bytes onto the bits `acc`. The first lies in `low..high`, every
later one in `0x80..0xBF`; a byte outside its range stays for the next piece. -/
def continuation : (count low high acc : Nat) → Bytes → Piece
  | 0, _, _, acc, rest => .char (Char.ofNat acc) rest
  | _ + 1, _, _, _, [] => .broken []
  | count + 1, low, high, acc, byte :: rest =>
    if low ≤ byte.toNat ∧ byte.toNat ≤ high then
      continuation count 0x80 0xBF (acc * 64 + byte.toNat % 64) rest
    else .broken (byte :: rest)

/-- The piece that begins with `first`. The ranges leave out overlong forms, surrogates and
numbers above U+10FFFF. -/
def piece (first : UInt8) (rest : Bytes) : Piece :=
  let v := first.toNat
  if v < 0x80 then .char (Char.ofNat v) rest
  else if 0xC2 ≤ v ∧ v ≤ 0xDF then continuation 1 0x80 0xBF (v % 32) rest
  else if v = 0xE0 then continuation 2 0xA0 0xBF 0 rest
  else if 0xE1 ≤ v ∧ v ≤ 0xEF then
    continuation 2 0x80 (if v = 0xED then 0x9F else 0xBF) (v % 16) rest
  else if v = 0xF0 then continuation 3 0x90 0xBF 0 rest
  else if 0xF1 ≤ v ∧ v ≤ 0xF4 then
    continuation 3 0x80 (if v = 0xF4 then 0x8F else 0xBF) (v % 8) rest
  else .broken rest

/-- The pieces of a byte string, `none` for a broken one. Each piece takes at least one byte, so
the length of the string is fuel enough. -/
def pieces : (fuel : Nat) → Bytes → List (Option Char)
  | 0, _ => []
  | _ + 1, [] => []
  | fuel + 1, byte :: rest =>
    match piece byte rest with
    | .char c rest => some c :: pieces fuel rest
    | .broken rest => none :: pieces fuel rest

/-- The text of a byte string; none when some piece is broken. -/
def decode? (bytes : Bytes) : Option (List Char) :=
  (pieces bytes.length bytes).mapM id

/-- The text of any byte string, with U+FFFD for each broken piece. -/
def decodeLossy (bytes : Bytes) : String :=
  String.ofList ((pieces bytes.length bytes).map (·.getD '\uFFFD'))

end GraphStore.Utf8
