import GraphStore.Filter.Expr
import GraphStore.Schema.Basic
import GraphStore.Schema.Code
import GraphStore.Encoding.Bytes
import Std.Data.ExtTreeMap

/-!
# Requests and responses

A mutation lists its items by partition, each partition once and in ascending order. A response
lists each failed partition with its code, and the leader to turn to where that is known.
-/

namespace GraphStore

/-- Something for each of some partitions, in ascending order. -/
abbrev PartMap (α : Type) := Std.ExtTreeMap PartId α

/-- A row to be written under one tag of a vertex. -/
structure NewTag where
  tag : TagId
  props : List Value
  deriving DecidableEq, Repr, Inhabited

/-- A vertex to be inserted. -/
structure NewVertex where
  id : VertexId
  tags : List NewTag
  deriving DecidableEq, Repr, Inhabited

/-- An edge to be inserted. -/
structure NewEdge where
  key : EdgeKey
  props : List Value
  deriving DecidableEq, Repr, Inhabited

/-- Inserts vertices. The properties of a tag follow the given names, or the schema's columns
when no names are given for it. -/
structure AddVertices where
  space : SpaceId
  parts : PartMap (List NewVertex)
  propNames : Std.ExtTreeMap TagId (List String) := ∅

/-- Inserts edges. Properties follow the given names, or the schema's columns when there are
none. -/
structure AddEdges where
  space : SpaceId
  parts : PartMap (List NewEdge)
  propNames : List String := []

/-- Deletes vertices with all their tags. -/
structure DeleteVertices where
  space : SpaceId
  parts : PartMap (List VertexId)

/-- Deletes edges. -/
structure DeleteEdges where
  space : SpaceId
  parts : PartMap (List EdgeKey)

/-- A new value for one property. It is computed with every earlier update applied. -/
structure UpdatedProp where
  name : String
  value : Expr
  deriving Repr, Inhabited

/-- Updates one tag row of a vertex if an encoded condition holds of it; an empty condition
always holds. `insertable` lets a missing row start from the schema's defaults. -/
structure UpdateVertex where
  space : SpaceId
  part : PartId
  vertex : VertexId
  tag : TagId
  updates : List UpdatedProp
  insertable : Bool := false
  returnProps : List String := []
  condition : Bytes := []
  deriving Repr, Inhabited

/-- How a lookup narrows one leading index column: to one value, or to the values from `low`,
itself included, up to `high`, itself excluded. -/
inductive Narrowing where
  | equal (value : Value)
  | range (low high : Value)
  deriving DecidableEq, Repr, Inhabited

/-- A narrowing of a named column. -/
structure ColumnHint where
  column : String
  scan : Narrowing
  deriving DecidableEq, Repr, Inhabited

/-- One index to be read, with an encoded filter; an empty filter keeps every row. -/
structure IndexQuery where
  index : IndexId
  filter : Bytes := []
  hints : List ColumnHint := []
  deriving DecidableEq, Repr, Inhabited

/-- What a lookup reads: indexes over one tag or edge type. -/
structure IndexSpec where
  queries : List IndexQuery
  isEdge : Bool
  schemaId : Int32
  deriving DecidableEq, Repr, Inhabited

/-- Looks up rows through indexes. -/
structure Lookup where
  space : SpaceId
  parts : List PartId
  indices : IndexSpec
  returnColumns : List String := []
  deriving DecidableEq, Repr, Inhabited

/-- A failed partition. -/
structure PartResult where
  part : PartId
  code : ErrorCode
  leader : Option Host := none
  deriving DecidableEq, Repr, Inhabited

/-- Named columns and rows. -/
structure DataSet where
  columns : List String := []
  rows : List Row := []
  deriving DecidableEq, Repr, Inhabited

/-- The outcome of a request. `requestCode` is set when the request was refused as a whole. -/
structure Response where
  failed : List PartResult := []
  requestCode : Option ErrorCode := none
  latencyMicros : Nat := 0
  deriving DecidableEq, Repr, Inhabited

/-- A request succeeds when no partition failed and it was not refused. -/
def Response.succeeded (r : Response) : Bool :=
  r.failed.isEmpty && r.requestCode.isNone

/-- The code reported for a partition. -/
def Response.codeFor? (r : Response) (part : PartId) : Option ErrorCode :=
  (r.failed.find? (·.part == part)).map (·.code)

/-- The outcome of an update, with the properties asked for. -/
structure UpdateResponse where
  result : Response
  props : Option DataSet := none
  deriving DecidableEq, Repr, Inhabited

/-- The outcome of a lookup, with its rows. -/
structure LookupResponse where
  result : Response
  data : DataSet
  deriving DecidableEq, Repr, Inhabited

end GraphStore
