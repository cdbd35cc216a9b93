import GraphStore.Key.Basic

/-!
# Keys of index entries

An index key is the index stem, the column values, a two-byte map of nulls if some column is
nullable, the entity, and the length of every string column. Fixed-width values keep their order,
so leading columns can be scanned as ranges. Strings are written raw and their lengths stand at
the end.
-/

namespace GraphStore

/-- An index over a space whose vertex ids take `vidLen` bytes. -/
structure IndexLayout where
  index : Index
  vidLen : Nat
  deriving DecidableEq, Repr, Inhabited

namespace IndexLayout

/-- Only this many leading columns can hold null. -/
def nullableColumns : Nat := 16

/-- Bytes before the column values. -/
def stemLength : Nat := Key.headerLength + 4

/-- Whether keys have a map of nulls. -/
def hasNullable (layout : IndexLayout) : Bool := layout.index.columns.any (·.nullable)

/-- Number of string columns. -/
def stringColumns (layout : IndexLayout) : Nat := layout.index.columns.countP (·.ty.isVarLen)

/-- Whether entries point at edges. -/
def isEdge (layout : IndexLayout) : Bool := layout.index.owner.isEdge

/-- Position of the first column of this name. -/
def position? (layout : IndexLayout) (column : String) : Option Nat :=
  layout.index.columns.findIdx? (·.name == column)

/-- Bytes of the map of nulls. -/
def nullMapLength (layout : IndexLayout) : Nat := if layout.hasNullable then 2 else 0

/-- Bytes of the entity. -/
def entityLength (layout : IndexLayout) : Nat :=
  if layout.isEdge then layout.vidLen * 2 + 8 else layout.vidLen

/-- Bytes of the string lengths. -/
def trailerLength (layout : IndexLayout) : Nat := layout.stringColumns * 4

/-- Bytes of a value; none when that depends on the value. -/
def fixedWidth? : ColumnType → Option Nat
  | .bool => some 1
  | .string => none
  | _ => some 8

/-- A column value in index order. Null takes the width of its column in zero bytes. -/
def encodeValue (column : Column) (value : Value) : Except ErrorCode Bytes :=
  match column.ty, value with
  | ty, .null =>
    if column.nullable then .ok (List.replicate ((fixedWidth? ty).getD 0) 0)
    else .error .notNullable
  | .bool, .bool b => .ok [if b then 1 else 0]
  | .int8, .int i => .ok (Key.ordered64 i)
  | .int16, .int i => .ok (Key.ordered64 i)
  | .int32, .int i => .ok (Key.ordered64 i)
  | .int64, .int i => .ok (Key.ordered64 i)
  | .timestamp, .int i => .ok (Key.ordered64 i)
  | .double, .float d => .ok (Key.orderedDouble d)
  | .double, .int i => .ok (Key.orderedDouble (Double.ofInt i.toInt))
  | .string, .str s => .ok (Utf8.ofString s)
  | _, _ => .error .dataTypeMismatch

/-- The value written in a column's bytes. -/
def decodeValue (ty : ColumnType) (raw : Bytes) : Value :=
  match ty with
  | .bool => .bool (raw.headD 0 != 0)
  | .double => .float (Key.readOrderedDouble raw)
  | .string => .str (Utf8.decodeLossy raw)
  | _ => .int (Key.readOrdered64 raw)

/-- Values one after another, each in the column of its place. -/
def encodeLeading : List Column → List Value → Except ErrorCode Bytes
  | column :: columns, value :: values => do
    let first ← encodeValue column value
    let rest ← encodeLeading columns values
    return first ++ rest
  | _, _ => return []

/-- What the keys of all entries begin with whose leading columns have these values. -/
def scanStem (layout : IndexLayout) (part : PartId) (leading : List Value) :
    Except ErrorCode Bytes := do
  if layout.index.columns.length < leading.length then throw .invalidOperation
  let values ← encodeLeading layout.index.columns leading
  return Key.indexStem part layout.index.id ++ values

/-- The encoded columns of an entry: the values, the places of nulls as a bit map, and the
lengths of the strings. -/
structure Columns where
  bytes : Bytes := []
  nulls : Nat := 0
  lengths : List Nat := []
  deriving DecidableEq, Repr, Inhabited

/-- Encodes the columns from place `i` on. -/
def encodeColumns : (i : Nat) → List Column → List Value → Except ErrorCode Columns
  | i, column :: columns, value :: values => do
    let encoded ← encodeValue column value
    if value.isNull && nullableColumns ≤ i then throw .invalidOperation
    let rest ← encodeColumns (i + 1) columns values
    return {
      bytes := encoded ++ rest.bytes
      nulls := (if value.isNull then Nat.pow 2 i else 0) + rest.nulls
      lengths := if column.ty.isVarLen then encoded.length :: rest.lengths else rest.lengths }
  | _, _, _ => return {}

/-- The bytes of the entity that an entry points at; it has to be of the index's kind. -/
def encodeEntity (layout : IndexLayout) (entity : Entity) : Except ErrorCode Bytes :=
  match entity, layout.isEdge with
  | .vertex vid, false => Key.padVid layout.vidLen vid
  | .edge e, true => do
    let src ← Key.padVid layout.vidLen e.src
    let dst ← Key.padVid layout.vidLen e.dst
    return src ++ Key.ordered64 e.ranking ++ dst
  | _, _ => .error .invalidOperation

/-- The key of the entry of an entity with these column values. -/
def encodeKey (layout : IndexLayout) (part : PartId) (values : List Value) (entity : Entity) :
    Except ErrorCode Bytes := do
  if values.length ≠ layout.index.columns.length then throw .invalidOperation
  let columns ← encodeColumns 0 layout.index.columns values
  let entity ← layout.encodeEntity entity
  return Key.indexStem part layout.index.id ++ columns.bytes ++
    Bytes.bigEndian layout.nullMapLength columns.nulls ++ entity ++
    columns.lengths.flatMap (Bytes.bigEndian 4)

/-- Four-byte numbers one after another. -/
def readLengths : (count : Nat) → Bytes → List Nat
  | 0, _ => []
  | count + 1, bytes => Bytes.toNat (bytes.take 4) :: readLengths count (bytes.drop 4)

/-- Cuts the columns off the front of a byte string. A string column takes the next length. -/
def splitColumns : List Column → (lengths : List Nat) → Bytes → Option (List Bytes × Bytes)
  | [], _, bytes => some ([], bytes)
  | column :: columns, lengths, bytes =>
    match fixedWidth? column.ty, lengths with
    | some width, _ =>
      if bytes.length < width then none
      else (splitColumns columns lengths (bytes.drop width)).map fun (raws, rest) =>
        (bytes.take width :: raws, rest)
    | none, length :: lengths =>
      if bytes.length < length then none
      else (splitColumns columns lengths (bytes.drop length)).map fun (raws, rest) =>
        (bytes.take length :: raws, rest)
    | none, [] => none

/-- The values of the columns from place `i` on, with null where the map says so. -/
def decodeValues (nulls : Nat) : (i : Nat) → List Column → List Bytes → List Value
  | i, column :: columns, raw :: raws =>
    (if i < nullableColumns && nulls.testBit i then .null else decodeValue column.ty raw) ::
      decodeValues nulls (i + 1) columns raws
  | _, _, _ => []

/-- The entity written in its bytes. -/
def decodeEntity (layout : IndexLayout) (raw : Bytes) : Entity :=
  match layout.index.owner with
  | .tag _ => .vertex (Key.unpadVid raw)
  | .edge edgeType =>
    let afterSrc := raw.drop layout.vidLen
    .edge {
      src := Key.unpadVid (raw.take layout.vidLen)
      edgeType
      ranking := Key.readOrdered64 (afterSrc.take 8)
      dst := Key.unpadVid (afterSrc.drop 8) }

/-- The column values and the entity of an index key. The parts of the key have to take up all
of it. -/
def decodeKey (layout : IndexLayout) (key : Bytes) : Except ErrorCode (List Value × Entity) :=
  let fixed := stemLength + layout.nullMapLength + layout.entityLength + layout.trailerLength
  if key.length < fixed ∨ key.head? ≠ some Key.indexKind then .error .unknown
  else
    let trailer := key.drop (key.length - layout.trailerLength)
    let lengths := readLengths layout.stringColumns trailer
    match splitColumns layout.index.columns lengths (key.drop stemLength) with
    | none => .error .unknown
    | some (raws, rest) =>
      if rest.length ≠ layout.nullMapLength + layout.entityLength + layout.trailerLength then
        .error .unknown
      else
        let nulls := Bytes.toNat (rest.take layout.nullMapLength)
        let entity := (rest.drop layout.nullMapLength).take layout.entityLength
        .ok (decodeValues nulls 0 layout.index.columns raws, layout.decodeEntity entity)

end IndexLayout

end GraphStore
