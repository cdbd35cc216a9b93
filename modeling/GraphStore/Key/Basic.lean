import GraphStore.Encoding.Utf8
import GraphStore.Schema.Basic
import GraphStore.Schema.Code

/-!
# Keys of vertex and edge rows

Every key begins with one byte for its kind and the low three bytes of the partition number, so
the keys of one kind in one partition are a contiguous range. Vertex ids are padded with zero
bytes to the width of the space. Signed integers are shifted to begin at zero and written
big-endian, so that byte order is numeric order.
-/

namespace GraphStore.Key

/-- First byte of a vertex row's key. -/
def vertexKind : UInt8 := 1

/-- First byte of an edge row's key. -/
def edgeKind : UInt8 := 2

/-- First byte of an index entry's key. -/
def indexKind : UInt8 := 3

/-- Bytes taken by the kind and the partition. -/
def headerLength : Nat := 4

/-- A 32-bit integer in order-preserving form. -/
def ordered32 (i : Int32) : Bytes := Bytes.bigEndian 4 (i.toInt + 0x80000000).toNat

/-- The integer written in four bytes. -/
def readOrdered32 (bytes : Bytes) : Int32 := Int32.ofInt (bytes.toNat - 0x80000000)

/-- A 64-bit integer in order-preserving form. -/
def ordered64 (i : Int64) : Bytes := Bytes.bigEndian 8 (i.toInt + 0x8000000000000000).toNat

/-- The integer written in eight bytes. -/
def readOrdered64 (bytes : Bytes) : Int64 := Int64.ofInt (bytes.toNat - 0x8000000000000000)

/-- A double in order-preserving form. -/
def orderedDouble (d : Double) : Bytes := Bytes.bigEndian 8 d.orderKey

/-- The double written in eight bytes. -/
def readOrderedDouble (bytes : Bytes) : Double := Double.ofOrderKey bytes.toNat

/-- The beginning of every key of one kind in one partition. -/
def header (kind : UInt8) (part : PartId) : Bytes :=
  kind :: Bytes.bigEndian 3 part.toUInt32.toNat

/-- A vertex id filled up to the width of the space; a longer id is refused. -/
def padVid (vidLen : Nat) (vid : VertexId) : Except ErrorCode Bytes :=
  let raw := Utf8.ofString vid
  if vidLen < raw.length then .error .invalidVid else .ok (raw.padTo vidLen)

/-- The vertex id in a field of the space's width. -/
def unpadVid (raw : Bytes) : VertexId := Utf8.decodeLossy raw.trimPadding

/-- What the keys of all tags of one vertex begin with. -/
def vertexStem (vidLen : Nat) (part : PartId) (vid : VertexId) : Except ErrorCode Bytes := do
  let vid ← padVid vidLen vid
  return header vertexKind part ++ vid

/-- The key of one tag row of a vertex. -/
def vertex (vidLen : Nat) (part : PartId) (vid : VertexId) (tag : TagId) :
    Except ErrorCode Bytes := do
  let stem ← vertexStem vidLen part vid
  return stem ++ ordered32 tag

/-- The tag in a vertex row's key; none for a key of another kind or length. -/
def tagOfVertex? (vidLen : Nat) (key : Bytes) : Option TagId :=
  if key.length = headerLength + vidLen + 4 ∧ key.head? = some vertexKind then
    some (readOrdered32 (key.drop (headerLength + vidLen)))
  else none

/-- The key of an edge row. -/
def edge (vidLen : Nat) (part : PartId) (e : EdgeKey) : Except ErrorCode Bytes := do
  let src ← padVid vidLen e.src
  let dst ← padVid vidLen e.dst
  return header edgeKind part ++ src ++ ordered32 e.edgeType ++ ordered64 e.ranking ++ dst

/-- The edge in an edge row's key; none for a key of another kind or length. -/
def edge? (vidLen : Nat) (key : Bytes) : Option EdgeKey :=
  if key.length = headerLength + vidLen * 2 + 12 ∧ key.head? = some edgeKind then
    let body := key.drop headerLength
    let afterSrc := body.drop vidLen
    some {
      src := unpadVid (body.take vidLen)
      edgeType := readOrdered32 (afterSrc.take 4)
      ranking := readOrdered64 ((afterSrc.drop 4).take 8)
      dst := unpadVid (afterSrc.drop 12) }
  else none

/-- What the keys of all entries of one index begin with. -/
def indexStem (part : PartId) (index : IndexId) : Bytes :=
  header indexKind part ++ ordered32 index

/-- Least key above every key that begins with `stem`: trailing 0xff bytes are dropped and the
last byte left is raised. A stem of 0xff bytes alone, which no key begins with, gets one more of
them. -/
def upperBound (stem : Bytes) : Bytes :=
  match stem.reverse.dropWhile (· == 0xff) with
  | last :: front => ((last + 1) :: front).reverse
  | [] => List.replicate (stem.length + 1) 0xff

end GraphStore.Key
