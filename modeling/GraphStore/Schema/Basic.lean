import GraphStore.Schema.Value

/-!
# Schemas, indexes and identities

A tag or an edge type has a schema of columns. A secondary index is built over one of them and
has columns of its own. Vertices are named by their id, edges by both ends, their type and a
ranking.
-/

namespace GraphStore

/-- Number of a graph space. -/
abbrev SpaceId := Int32

/-- Number of a partition. -/
abbrev PartId := Int32

/-- Number of a tag. -/
abbrev TagId := Int32

/-- Number of an edge type. -/
abbrev EdgeType := Int32

/-- Number of a secondary index. -/
abbrev IndexId := Int32

/-- Name of a vertex. -/
abbrev VertexId := String

/-- Type of a column. -/
inductive ColumnType where
  | bool | int8 | int16 | int32 | int64 | double | string | timestamp
  deriving DecidableEq, Repr, Inhabited

namespace ColumnType

/-- Every type, in declared order. -/
def all : List ColumnType :=
  [bool, int8, int16, int32, int64, double, string, timestamp]

/-- The name of a type. -/
def name : ColumnType → String
  | bool => "bool"
  | int8 => "int8"
  | int16 => "int16"
  | int32 => "int32"
  | int64 => "int64"
  | double => "double"
  | string => "string"
  | timestamp => "timestamp"

/-- The type of this name. -/
def ofName? (name : String) : Option ColumnType := all.find? (·.name == name)

/-- Whether the width of an encoded value depends on the value. -/
def isVarLen (ty : ColumnType) : Bool := ty = string

end ColumnType

/-- A column of a schema or an index. -/
structure Column where
  name : String
  ty : ColumnType
  nullable : Bool := false
  default : Option Value := none
  deriving DecidableEq, Repr, Inhabited

/-- The columns of a tag or edge type. -/
structure Schema where
  columns : List Column := []
  deriving DecidableEq, Repr, Inhabited

/-- Position and definition of the first column of this name. -/
def Schema.field? (schema : Schema) (name : String) : Option (Nat × Column) :=
  match schema.columns.findIdx? (·.name == name) with
  | some i => schema.columns[i]?.map fun column => (i, column)
  | none => none

/-- The tag or edge type that something belongs to. -/
inductive SchemaRef where
  | tag (id : TagId)
  | edge (id : EdgeType)
  deriving DecidableEq, Repr, Inhabited

/-- Whether this is an edge type. -/
def SchemaRef.isEdge : SchemaRef → Bool
  | .tag _ => false
  | .edge _ => true

/-- The edge type or tag of this number. -/
def SchemaRef.of (isEdge : Bool) (id : Int32) : SchemaRef :=
  if isEdge then .edge id else .tag id

/-- A secondary index. -/
structure Index where
  id : IndexId
  name : String
  owner : SchemaRef
  columns : List Column
  deriving DecidableEq, Repr, Inhabited

/-- Whether the index has a column of this name. -/
def Index.covers (index : Index) (column : String) : Bool :=
  index.columns.any (·.name == column)

/-- What identifies an edge. -/
structure EdgeKey where
  src : VertexId
  edgeType : EdgeType
  ranking : Int64
  dst : VertexId
  deriving DecidableEq, Repr, Inhabited

/-- What an index entry points at. -/
inductive Entity where
  | vertex (id : VertexId)
  | edge (key : EdgeKey)
  deriving DecidableEq, Repr, Inhabited

/-- Address of a storage host. -/
structure Host where
  name : String
  portNumber : UInt16
  deriving DecidableEq, Repr, Inhabited

/-- The name and the number, with a colon between them. -/
def Host.text (host : Host) : String := s!"{host.name}:{host.portNumber.toNat}"

end GraphStore
