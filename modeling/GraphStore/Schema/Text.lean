import GraphStore.Schema.Basic
import GraphStore.Schema.Code

/-!
# JSON forms of schemas and identities

Each type has a writer, which gives the fields in declared order, and a reader.
-/

namespace GraphStore

/-- A name alone, or an object with the name and no payload. -/
def Json.unitVariant? (buffered : Bool) (ofName? : String → Option α) (j : Json) : Option α :=
  match j.variant? with
  | some (name, payload) => if isUnit buffered payload then ofName? name else none
  | none => none

/-- Reads the name of an error code. -/
def ErrorCode.ofJson? : Json → Option ErrorCode := Json.unitVariant? false ofName?

/-- The JSON form of an error code. -/
def ErrorCode.toJson (code : ErrorCode) : Json := .str code.name

namespace Column

/-- The JSON form of a column. -/
def toJson (column : Column) : Json :=
  .obj [("name", .str column.name), ("ty", .str column.ty.name),
    ("nullable", .bool column.nullable), ("default", Json.orNull (column.default.map Value.toJson))]

/-- Reads a column. It is not nullable and has no default unless that is said. -/
def ofJson? (j : Json) : Option Column :=
  match Json.fields ["name", "ty", "nullable", "default"] j with
  | some [name, ty, nullable, default] => do
    let name ← name.required Json.string?
    let ty ← ty.required (Json.unitVariant? false ColumnType.ofName?)
    let nullable ← nullable.withDefault false Json.bool?
    let default ← default.withDefault none (Json.nullable (Value.ofJson? false))
    some { name, ty, nullable, default }
  | _ => none

end Column

namespace Schema

/-- The JSON form of a schema. -/
def toJson (schema : Schema) : Json :=
  .obj [("columns", .arr (schema.columns.map Column.toJson))]

/-- Reads a schema. -/
def ofJson? (j : Json) : Option Schema :=
  match Json.fields ["columns"] j with
  | some [columns] => (columns.required (Json.list? Column.ofJson?)).map fun columns => { columns }
  | _ => none

end Schema

namespace SchemaRef

/-- The JSON form of a tag or edge type. -/
def toJson : SchemaRef → Json
  | tag id => .obj [("tag", .int id.toInt)]
  | edge id => .obj [("edge", .int id.toInt)]

/-- Reads a tag or edge type. -/
def ofJson? (j : Json) : Option SchemaRef :=
  match j.variant? with
  | some ("tag", some id) => id.int32?.map tag
  | some ("edge", some id) => id.int32?.map edge
  | _ => none

end SchemaRef

namespace Index

/-- The JSON form of an index. -/
def toJson (index : Index) : Json :=
  .obj [("index_id", .int index.id.toInt), ("index_name", .str index.name),
    ("schema", index.owner.toJson), ("fields", .arr (index.columns.map Column.toJson))]

/-- Reads an index. -/
def ofJson? (j : Json) : Option Index :=
  match Json.fields ["index_id", "index_name", "schema", "fields"] j with
  | some [id, name, owner, columns] => do
    let id ← id.required Json.int32?
    let name ← name.required Json.string?
    let owner ← owner.required SchemaRef.ofJson?
    let columns ← columns.required (Json.list? Column.ofJson?)
    some { id, name, owner, columns }
  | _ => none

end Index

namespace EdgeKey

/-- The JSON form of an edge key. -/
def toJson (key : EdgeKey) : Json :=
  .obj [("src", .str key.src), ("edge_type", .int key.edgeType.toInt),
    ("ranking", .int key.ranking.toInt), ("dst", .str key.dst)]

/-- Reads an edge key. -/
def ofJson? (j : Json) : Option EdgeKey :=
  match Json.fields ["src", "edge_type", "ranking", "dst"] j with
  | some [src, edgeType, ranking, dst] => do
    let src ← src.required Json.string?
    let edgeType ← edgeType.required Json.int32?
    let ranking ← ranking.required Json.int64?
    let dst ← dst.required Json.string?
    some { src, edgeType, ranking, dst }
  | _ => none

end EdgeKey

namespace Host

/-- The JSON form of a host address. -/
def toJson (host : Host) : Json :=
  .obj [("host", .str host.name), ("port", .int host.portNumber.toNat)]

/-- Reads a host address. -/
def ofJson? (j : Json) : Option Host :=
  match Json.fields ["host", "port"] j with
  | some [name, number] => do
    let name ← name.required Json.string?
    let number ← number.required (Json.nat? 16)
    some { name, portNumber := UInt16.ofNat number }
  | _ => none

end Host

end GraphStore
