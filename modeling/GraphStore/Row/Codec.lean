import GraphStore.Row.Props
import GraphStore.Schema.Code
import GraphStore.Json.Reader
import GraphStore.Json.Writer

/-!
# Stored rows

A row is stored as the JSON array of its values in column order. Every given value is checked
against its column, and the first fault is reported; a column that is not given takes its
default, or null if it is nullable. Reading asks only for as many values as there are columns.
-/

namespace GraphStore.Row

/-- An integer within the bounds of its column. -/
def checkInt (i : Int64) (bits : Nat) : Except RowFault Value :=
  if -(Nat.pow 2 (bits - 1) : Int) ≤ i.toInt ∧ i.toInt < Nat.pow 2 (bits - 1) then .ok (.int i)
  else .error .outOfRange

/-- The value that a column stores for a given one. -/
def check (column : Column) (value : Value) : Except RowFault Value :=
  match column.ty, value with
  | _, .null => if column.nullable then .ok .null else .error .notNullable
  | .bool, .bool b => .ok (.bool b)
  | .int8, .int i => checkInt i 8
  | .int16, .int i => checkInt i 16
  | .int32, .int i => checkInt i 32
  | .int64, .int i => .ok (.int i)
  | .timestamp, .int i => .ok (.int i)
  | .double, .float d => .ok (.float d)
  | .double, .int i => .ok (.float (Double.ofInt i.toInt))
  | .string, .str s => .ok (.str s)
  | _, _ => .error .typeMismatch

/-- Values for the leading columns in order. -/
def fillInOrder : List Column → List Value → Except RowFault (List (Option Value))
  | columns, [] => .ok (columns.map fun _ => none)
  | [], _ :: _ => .error .unknownField
  | column :: columns, value :: values => do
    let value ← check column value
    let rest ← fillInOrder columns values
    return some value :: rest

/-- Values for named columns. A repeated name keeps its last value. -/
def fillByName (schema : Schema) :
    (slots : List (Option Value)) → List (String × Value) → Except RowFault (List (Option Value))
  | slots, [] => .ok slots
  | slots, (name, value) :: rest =>
    match schema.field? name with
    | none => .error .unknownField
    | some (i, column) => do
      let value ← check column value
      fillByName schema (slots.set i (some value)) rest

/-- What each column is given. No names stand for the columns in order. -/
def slots (schema : Schema) (names : List String) (values : List Value) :
    Except RowFault (List (Option Value)) :=
  if names.isEmpty then
    if schema.columns.length < values.length then .error .unknownField
    else fillInOrder schema.columns values
  else if names.length ≠ values.length then .error .incorrectValue
  else fillByName schema (schema.columns.map fun _ => none) (names.zip values)

/-- The value of a column that was or was not given. -/
def complete (column : Column) : Option Value → Except RowFault Value
  | some value => .ok value
  | none =>
    match column.default with
    | some value => .ok value
    | none => if column.nullable then .ok .null else .error .fieldUnset

/-- The values of every column. -/
def completeAll : List Column → List (Option Value) → Except RowFault Row
  | column :: columns, slot :: slots => do
    let value ← complete column slot
    let rest ← completeAll columns slots
    return value :: rest
  | _, _ => .ok []

/-- The row that the given values make. -/
def ofGiven (schema : Schema) (names : List String) (values : List Value) :
    Except RowFault Row := do
  let slots ← slots schema names values
  completeAll schema.columns slots

/-- The stored form of a row. -/
def toBytes (row : Row) : Bytes := (Json.arr (row.map Value.toJson)).toBytes

/-- The stored form of the row that the given values make. -/
def encode (schema : Schema) (names : List String) (values : List Value) :
    Except RowFault Bytes := do
  let row ← ofGiven schema names values
  return toBytes row

/-- Why a stored row cannot be read. -/
inductive DecodeFault where
  | malformed
  | columnCount (values columns : Nat)
  deriving DecidableEq, Repr, Inhabited

/-- The fault in words. -/
def DecodeFault.message : DecodeFault → String
  | malformed => "decode stored row"
  | columnCount values columns =>
    s!"stored row has {values} values, schema has {columns} columns"

/-- The values of a stored row. -/
def decode (schema : Schema) (bytes : Bytes) : Except DecodeFault Row :=
  match (Json.ofBytes? bytes).bind (Json.list? (Value.ofJson? false)) with
  | none => .error .malformed
  | some row =>
    if row.length = schema.columns.length then .ok row
    else .error (.columnCount row.length schema.columns.length)

end GraphStore.Row
