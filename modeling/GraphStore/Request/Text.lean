import GraphStore.Request.Basic
import GraphStore.Filter.Text

/-!
# JSON forms of requests and responses

Maps by partition or tag are objects whose member names are plain decimal numbers; a repeated
number keeps its last value, and the writer lists the numbers in ascending order. An absent
leader or data set is written as null, an absent request code is left out.
-/

namespace GraphStore

namespace Json

/-- A 32-bit integer spelled as a member name: an integer literal and nothing around it. -/
def int32Name? (name : String) : Option Int32 :=
  match readNumber name.toList with
  | some (j, []) => j.int32?
  | _ => none

/-- Reads an object whose member names are integers. -/
def intMap? (read : Json → Option α) : Json → Option (Std.ExtTreeMap Int32 α)
  | obj members => members.foldlM (fun map (name, j) => do
      let key ← int32Name? name
      let value ← read j
      some (map.insert key value)) ∅
  | _ => none

/-- Writes a map with integer keys in ascending order. -/
def ofIntMap (write : α → Json) (map : Std.ExtTreeMap Int32 α) : Json :=
  obj (map.toList.map fun (key, value) => (String.ofList (intText key.toInt), write value))

/-- A byte string as an array of numbers. -/
def ofBytes (bytes : Bytes) : Json := arr (bytes.map fun byte => int byte.toNat)

/-- Reads an array of values, one value being a row's column. -/
def row? : Json → Option Row := list? (Value.ofJson? false)

/-- Writes a list of values. -/
def ofRow (row : Row) : Json := arr (row.map Value.toJson)

end Json

namespace NewTag

/-- The JSON form of a tag row to be written. -/
def toJson (tag : NewTag) : Json :=
  .obj [("tag_id", .int tag.tag.toInt), ("props", Json.ofRow tag.props)]

/-- Reads a tag row to be written. -/
def ofJson? (j : Json) : Option NewTag :=
  match Json.fields ["tag_id", "props"] j with
  | some [tag, props] => do
    let tag ← tag.required Json.int32?
    let props ← props.required Json.row?
    some { tag, props }
  | _ => none

end NewTag

namespace NewVertex

/-- The JSON form of a vertex to be inserted. -/
def toJson (vertex : NewVertex) : Json :=
  .obj [("id", .str vertex.id), ("tags", .arr (vertex.tags.map NewTag.toJson))]

/-- Reads a vertex to be inserted. -/
def ofJson? (j : Json) : Option NewVertex :=
  match Json.fields ["id", "tags"] j with
  | some [id, tags] => do
    let id ← id.required Json.string?
    let tags ← tags.required (Json.list? NewTag.ofJson?)
    some { id, tags }
  | _ => none

end NewVertex

namespace NewEdge

/-- The JSON form of an edge to be inserted. -/
def toJson (edge : NewEdge) : Json :=
  .obj [("key", edge.key.toJson), ("props", Json.ofRow edge.props)]

/-- Reads an edge to be inserted. -/
def ofJson? (j : Json) : Option NewEdge :=
  match Json.fields ["key", "props"] j with
  | some [key, props] => do
    let key ← key.required EdgeKey.ofJson?
    let props ← props.required Json.row?
    some { key, props }
  | _ => none

end NewEdge

namespace AddVertices

/-- The JSON form of the request. -/
def toJson (req : AddVertices) : Json :=
  .obj [("space_id", .int req.space.toInt),
    ("parts", Json.ofIntMap (fun vs => .arr (vs.map NewVertex.toJson)) req.parts),
    ("prop_names", Json.ofIntMap Json.strs req.propNames)]

/-- Reads the request. -/
def ofJson? (j : Json) : Option AddVertices :=
  match Json.fields ["space_id", "parts", "prop_names"] j with
  | some [space, parts, propNames] => do
    let space ← space.required Json.int32?
    let parts ← parts.required (Json.intMap? (Json.list? NewVertex.ofJson?))
    let propNames ← propNames.withDefault ∅ (Json.intMap? (Json.list? Json.string?))
    some { space, parts, propNames }
  | _ => none

end AddVertices

namespace AddEdges

/-- The JSON form of the request. -/
def toJson (req : AddEdges) : Json :=
  .obj [("space_id", .int req.space.toInt),
    ("parts", Json.ofIntMap (fun es => .arr (es.map NewEdge.toJson)) req.parts),
    ("prop_names", Json.strs req.propNames)]

/-- Reads the request. -/
def ofJson? (j : Json) : Option AddEdges :=
  match Json.fields ["space_id", "parts", "prop_names"] j with
  | some [space, parts, propNames] => do
    let space ← space.required Json.int32?
    let parts ← parts.required (Json.intMap? (Json.list? NewEdge.ofJson?))
    let propNames ← propNames.withDefault [] (Json.list? Json.string?)
    some { space, parts, propNames }
  | _ => none

end AddEdges

namespace DeleteVertices

/-- The JSON form of the request. -/
def toJson (req : DeleteVertices) : Json :=
  .obj [("space_id", .int req.space.toInt), ("parts", Json.ofIntMap Json.strs req.parts)]

/-- Reads the request. -/
def ofJson? (j : Json) : Option DeleteVertices :=
  match Json.fields ["space_id", "parts"] j with
  | some [space, parts] => do
    let space ← space.required Json.int32?
    let parts ← parts.required (Json.intMap? (Json.list? Json.string?))
    some { space, parts }
  | _ => none

end DeleteVertices

namespace DeleteEdges

/-- The JSON form of the request. -/
def toJson (req : DeleteEdges) : Json :=
  .obj [("space_id", .int req.space.toInt),
    ("parts", Json.ofIntMap (fun keys => .arr (keys.map EdgeKey.toJson)) req.parts)]

/-- Reads the request. -/
def ofJson? (j : Json) : Option DeleteEdges :=
  match Json.fields ["space_id", "parts"] j with
  | some [space, parts] => do
    let space ← space.required Json.int32?
    let parts ← parts.required (Json.intMap? (Json.list? EdgeKey.ofJson?))
    some { space, parts }
  | _ => none

end DeleteEdges

namespace UpdatedProp

/-- The JSON form of an update. -/
def toJson (update : UpdatedProp) : Json :=
  .obj [("name", .str update.name), ("value", update.value.toJson)]

/-- Reads an update. -/
def ofJson? (j : Json) : Option UpdatedProp :=
  match Json.fields ["name", "value"] j with
  | some [name, value] => do
    let name ← name.required Json.string?
    let value ← value.required Expr.read?
    some { name, value }
  | _ => none

end UpdatedProp

namespace UpdateVertex

/-- The names of the fields, in declared order. -/
def fieldNames : List String :=
  ["space_id", "part_id", "vertex_id", "tag_id", "updated_props", "insertable", "return_props",
    "condition"]

/-- The JSON form of the request. -/
def toJson (req : UpdateVertex) : Json :=
  .obj [("space_id", .int req.space.toInt), ("part_id", .int req.part.toInt),
    ("vertex_id", .str req.vertex), ("tag_id", .int req.tag.toInt),
    ("updated_props", .arr (req.updates.map UpdatedProp.toJson)),
    ("insertable", .bool req.insertable), ("return_props", Json.strs req.returnProps),
    ("condition", Json.ofBytes req.condition)]

/-- Reads the request. -/
def ofJson? (j : Json) : Option UpdateVertex :=
  match Json.fields fieldNames j with
  | some [space, part, vertex, tag, updates, insertable, returnProps, condition] => do
    let space ← space.required Json.int32?
    let part ← part.required Json.int32?
    let vertex ← vertex.required Json.string?
    let tag ← tag.required Json.int32?
    let updates ← updates.required (Json.list? UpdatedProp.ofJson?)
    let insertable ← insertable.withDefault false Json.bool?
    let returnProps ← returnProps.withDefault [] (Json.list? Json.string?)
    let condition ← condition.withDefault [] (Json.list? Json.byte?)
    some { space, part, vertex, tag, updates, insertable, returnProps, condition }
  | _ => none

end UpdateVertex

namespace Narrowing

/-- The JSON form of a narrowing. -/
def toJson : Narrowing → Json
  | equal value => .obj [("prefix", value.toJson)]
  | range low high => .obj [("range", .obj [("begin", low.toJson), ("end", high.toJson)])]

/-- Reads a narrowing. -/
def ofJson? (j : Json) : Option Narrowing :=
  match j.variant? with
  | some ("prefix", some value) => (Value.ofJson? false value).map equal
  | some ("range", some bounds) =>
    match Json.fields ["begin", "end"] bounds with
    | some [low, high] => do
      let low ← low.required (Value.ofJson? false)
      let high ← high.required (Value.ofJson? false)
      some (range low high)
    | _ => none
  | _ => none

end Narrowing

namespace ColumnHint

/-- The JSON form of a hint. -/
def toJson (hint : ColumnHint) : Json :=
  .obj [("column_name", .str hint.column), ("scan", hint.scan.toJson)]

/-- Reads a hint. -/
def ofJson? (j : Json) : Option ColumnHint :=
  match Json.fields ["column_name", "scan"] j with
  | some [column, scan] => do
    let column ← column.required Json.string?
    let scan ← scan.required Narrowing.ofJson?
    some { column, scan }
  | _ => none

end ColumnHint

namespace IndexQuery

/-- The JSON form of an index query. -/
def toJson (query : IndexQuery) : Json :=
  .obj [("index_id", .int query.index.toInt), ("filter", Json.ofBytes query.filter),
    ("column_hints", .arr (query.hints.map ColumnHint.toJson))]

/-- Reads an index query. -/
def ofJson? (j : Json) : Option IndexQuery :=
  match Json.fields ["index_id", "filter", "column_hints"] j with
  | some [index, filter, hints] => do
    let index ← index.required Json.int32?
    let filter ← filter.withDefault [] (Json.list? Json.byte?)
    let hints ← hints.withDefault [] (Json.list? ColumnHint.ofJson?)
    some { index, filter, hints }
  | _ => none

end IndexQuery

namespace IndexSpec

/-- The JSON form of what a lookup reads. -/
def toJson (spec : IndexSpec) : Json :=
  .obj [("contexts", .arr (spec.queries.map IndexQuery.toJson)), ("is_edge", .bool spec.isEdge),
    ("tag_or_edge_id", .int spec.schemaId.toInt)]

/-- Reads what a lookup reads. -/
def ofJson? (j : Json) : Option IndexSpec :=
  match Json.fields ["contexts", "is_edge", "tag_or_edge_id"] j with
  | some [queries, isEdge, schemaId] => do
    let queries ← queries.required (Json.list? IndexQuery.ofJson?)
    let isEdge ← isEdge.required Json.bool?
    let schemaId ← schemaId.required Json.int32?
    some { queries, isEdge, schemaId }
  | _ => none

end IndexSpec

namespace Lookup

/-- The JSON form of the request. -/
def toJson (req : Lookup) : Json :=
  .obj [("space_id", .int req.space.toInt),
    ("parts", .arr (req.parts.map fun part => .int part.toInt)),
    ("indices", req.indices.toJson), ("return_columns", Json.strs req.returnColumns)]

/-- Reads the request. -/
def ofJson? (j : Json) : Option Lookup :=
  match Json.fields ["space_id", "parts", "indices", "return_columns"] j with
  | some [space, parts, indices, returnColumns] => do
    let space ← space.required Json.int32?
    let parts ← parts.required (Json.list? Json.int32?)
    let indices ← indices.required IndexSpec.ofJson?
    let returnColumns ← returnColumns.withDefault [] (Json.list? Json.string?)
    some { space, parts, indices, returnColumns }
  | _ => none

end Lookup

namespace PartResult

/-- The JSON form of a failed partition. -/
def toJson (result : PartResult) : Json :=
  .obj [("part_id", .int result.part.toInt), ("code", result.code.toJson),
    ("leader", Json.orNull (result.leader.map Host.toJson))]

/-- Reads a failed partition. -/
def ofJson? (j : Json) : Option PartResult :=
  match Json.fields ["part_id", "code", "leader"] j with
  | some [part, code, leader] => do
    let part ← part.required Json.int32?
    let code ← code.required ErrorCode.ofJson?
    let leader ← leader.optional Host.ofJson?
    some { part, code, leader }
  | _ => none

end PartResult

namespace DataSet

/-- The JSON form of a data set. -/
def toJson (data : DataSet) : Json :=
  .obj [("col_names", Json.strs data.columns), ("rows", .arr (data.rows.map Json.ofRow))]

/-- Reads a data set. -/
def ofJson? (j : Json) : Option DataSet :=
  match Json.fields ["col_names", "rows"] j with
  | some [columns, rows] => do
    let columns ← columns.required (Json.list? Json.string?)
    let rows ← rows.required (Json.list? Json.row?)
    some { columns, rows }
  | _ => none

end DataSet

namespace Response

/-- The JSON form of a response. -/
def toJson (r : Response) : Json :=
  let requestCode := match r.requestCode with
    | some code => [("request_code", code.toJson)]
    | none => []
  .obj (("failed_parts", .arr (r.failed.map PartResult.toJson)) :: requestCode ++
    [("latency_us", .int r.latencyMicros)])

/-- Reads a response. -/
def ofJson? (j : Json) : Option Response :=
  match Json.fields ["failed_parts", "request_code", "latency_us"] j with
  | some [failed, requestCode, latency] => do
    let failed ← failed.required (Json.list? PartResult.ofJson?)
    let requestCode ← requestCode.withDefault none (Json.nullable ErrorCode.ofJson?)
    let latencyMicros ← latency.required (Json.nat? 64)
    some { failed, requestCode, latencyMicros }
  | _ => none

end Response

namespace UpdateResponse

/-- The JSON form of the outcome of an update. -/
def toJson (r : UpdateResponse) : Json :=
  .obj [("result", r.result.toJson), ("props", Json.orNull (r.props.map DataSet.toJson))]

/-- Reads the outcome of an update. -/
def ofJson? (j : Json) : Option UpdateResponse :=
  match Json.fields ["result", "props"] j with
  | some [result, props] => do
    let result ← result.required Response.ofJson?
    let props ← props.optional DataSet.ofJson?
    some { result, props }
  | _ => none

end UpdateResponse

namespace LookupResponse

/-- The JSON form of the outcome of a lookup. -/
def toJson (r : LookupResponse) : Json :=
  .obj [("result", r.result.toJson), ("data", r.data.toJson)]

/-- Reads the outcome of a lookup. -/
def ofJson? (j : Json) : Option LookupResponse :=
  match Json.fields ["result", "data"] j with
  | some [result, data] => do
    let result ← result.required Response.ofJson?
    let data ← data.required DataSet.ofJson?
    some { result, data }
  | _ => none

end LookupResponse

end GraphStore
