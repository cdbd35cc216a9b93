/-!
# Byte strings and big-endian numbers

Keys and stored rows are byte strings, ordered byte by byte with a shorter string before its
extensions. A number of fixed width is written most significant byte first, so that byte order
is numeric order.
-/

namespace GraphStore

/-- A byte string. -/
abbrev Bytes := List UInt8

namespace Bytes

/-- The `width` low bytes of `n`, most significant first. -/
def bigEndian : (width : Nat) → (n : Nat) → Bytes
  | 0, _ => []
  | width + 1, n => UInt8.ofNat (n / Nat.pow 256 width % 256) :: bigEndian width n

/-- A fixed-width number takes exactly its width. -/
@[simp] theorem length_bigEndian (width n : Nat) : (bigEndian width n).length = width := by
  induction width with
  | zero => rfl
  | succ width ih => simp [bigEndian, ih]

/-- The number that a byte string spells, most significant byte first. -/
def toNat (bytes : Bytes) : Nat :=
  bytes.foldl (fun n byte => n * 256 + byte.toNat) 0

/-- Zero bytes are appended up to `width`; a longer string is left as it is. -/
def padTo (width : Nat) (bytes : Bytes) : Bytes :=
  bytes ++ List.replicate (width - bytes.length) 0

/-- A string that fits its field fills the field. -/
theorem length_padTo {width : Nat} {bytes : Bytes} (h : bytes.length ≤ width) :
    (padTo width bytes).length = width := by
  simp [padTo]; omega

/-- The bytes before the padding: every trailing zero byte is dropped. -/
def trimPadding (bytes : Bytes) : Bytes :=
  (bytes.reverse.dropWhile (· == 0)).reverse

end Bytes

end GraphStore
