import GraphStore.Query.Candidate
import GraphStore.Row.Codec
import GraphStore.Storage.Node

/-!
# Operators of a lookup plan

Scan reads an index, join fetches the stored row behind each hit, filter drops hits, output makes
result rows, and aggregate puts the rows of several outputs together. Only join touches the cache
of vertex rows, which is passed along beside the result.
-/

namespace GraphStore

/-- What the operators of a plan read. -/
structure QueryScope where
  node : Node
  space : SpaceId
  vidLen : Nat
  /-- The tag of looked-up vertices, or the edge type. -/
  schemaId : Int32

/-- An operator. -/
inductive Operator where
  | scan (layout : IndexLayout) (hints : List ColumnHint)
  | join (onEdges : Bool) (schema : Schema)
  | filter (condition : Expr) (source : FilterSource)
  | output (layout : IndexLayout) (columns : List String)
  | aggregate
  deriving Repr, Inhabited

/-- The kind of an operator. -/
inductive OperatorKind where
  | indexScan | joinVertices | joinEdges | filter | output | aggregate
  deriving DecidableEq, Repr, Inhabited

/-- The kind of an operator. -/
def Operator.kind : Operator → OperatorKind
  | scan _ _ => .indexScan
  | join true _ => .joinEdges
  | join false _ => .joinVertices
  | filter _ _ => .filter
  | output _ _ => .output
  | aggregate => .aggregate

/-- What operators hand to one another. -/
inductive Flow where
  | candidates (hits : List Candidate)
  | rows (rows : List Row)
  deriving DecidableEq, Repr, Inhabited

namespace ColumnHint

/-- The values that leading columns are narrowed to. -/
def equalValues (hints : List ColumnHint) : List Value :=
  hints.filterMap fun hint =>
    match hint.scan with
    | .equal value => some value
    | .range _ _ => none

/-- The bounds of the last range. -/
def lastRange? (hints : List ColumnHint) : Option (Value × Value) :=
  (hints.filterMap fun hint =>
    match hint.scan with
    | .equal _ => none
    | .range low high => some (low, high)).getLast?

/-- Whether a value lies in the narrowing of a hint. -/
def admits (hint : ColumnHint) (value : Value) : Bool :=
  match hint.scan with
  | .equal expected => value.compare? expected = some .eq
  | .range low high =>
    (match value.compare? low with
      | some ordering => ordering.isGE
      | none => false) && value.compare? high = some .lt

/-- Whether index values satisfy the hints, each in the column of its place. -/
def allAdmit (hints : List ColumnHint) (values : List Value) : Bool :=
  (hints.zip values).all fun (hint, value) => hint.admits value

end ColumnHint

namespace QueryScope

/-- The index entries that the hints narrow down to. A string shorter than the upper bound can be
sorted past it by the bytes that follow it in the key, so a range of strings is read to the end
of the stem. -/
def readIndex (scope : QueryScope) (part : PartId) (layout : IndexLayout)
    (hints : List ColumnHint) : Except ErrorCode (List Entry) := do
  let leading := ColumnHint.equalValues hints
  let stem ← layout.scanStem part leading
  match ColumnHint.lastRange? hints with
  | none => (scope.node.scan scope.space part stem).mapError EngineCode.toErrorCode
  | some (low, high) =>
    let column ← match layout.index.columns[leading.length]? with
      | some column => pure column
      | none => throw .invalidOperation
    let low ← IndexLayout.encodeValue column low
    let stop ←
      if column.ty.isVarLen then pure (Key.upperBound stem)
      else do
        let high ← IndexLayout.encodeValue column high
        pure (stem ++ high)
    (scope.node.range scope.space part (stem ++ low) stop).mapError EngineCode.toErrorCode

/-- The hit of an index entry. -/
def candidate (layout : IndexLayout) (entry : Entry) : Except ErrorCode Candidate := do
  let (indexValues, entity) ← layout.decodeKey entry.1
  return { key := entry.1, entity, indexValues }

/-- The hits that satisfy the hints. The bounds of a string can read too much, so every hit is
checked by its values. -/
def scan (scope : QueryScope) (part : PartId) (layout : IndexLayout)
    (hints : List ColumnHint) : Except ErrorCode (List Candidate) := do
  let entries ← scope.readIndex part layout hints
  let hits ← entries.mapM (candidate layout)
  return hits.filter fun hit => ColumnHint.allAdmit hints hit.indexValues

/-- The stored tag row of a vertex. -/
def storedVertexRow (scope : QueryScope) (part : PartId) (vid : VertexId) :
    Except ErrorCode (Option Bytes) := do
  let key ← Key.vertex scope.vidLen part vid scope.schemaId
  (scope.node.get scope.space part key).mapError EngineCode.toErrorCode

/-- The tag row of a vertex, from the cache if it is there. A row that is read is cached. -/
def vertexRow (scope : QueryScope) (part : PartId) (vid : VertexId) :
    Option VertexCache → Option VertexCache × Except ErrorCode (Option Bytes)
  | none => (none, scope.storedVertexRow part vid)
  | some cache =>
    let key : CacheKey := { space := scope.space, vid, tag := scope.schemaId }
    match cache.get key with
    | (cache, some row) => (some cache, .ok (some row))
    | (cache, none) =>
      match scope.storedVertexRow part vid with
      | .ok (some row) => (some (cache.insert key row), .ok (some row))
      | result => (some cache, result)

/-- The stored row of an edge. -/
def storedEdgeRow (scope : QueryScope) (part : PartId) (edge : EdgeKey) :
    Except ErrorCode (Option Bytes) := do
  let key ← Key.edge scope.vidLen part edge
  (scope.node.get scope.space part key).mapError EngineCode.toErrorCode

/-- The stored row of an entity. -/
def entityRow (scope : QueryScope) (part : PartId) (cache : Option VertexCache) :
    Entity → Option VertexCache × Except ErrorCode (Option Bytes)
  | .vertex vid => scope.vertexRow part vid cache
  | .edge edge => (cache, scope.storedEdgeRow part edge)

/-- A hit with the properties of its row; none if the row is gone or cannot be read. -/
def joined? (schema : Schema) (hit : Candidate) (raw : Option Bytes) : Option Candidate :=
  raw.bind fun raw =>
    match Row.decode schema raw with
    | .ok row => some { hit with props := some (Props.ofRow schema row) }
    | .error _ => none

/-- Joins hits with their rows, up to the first that cannot be looked up. -/
def join (scope : QueryScope) (part : PartId) (schema : Schema) :
    Option VertexCache → List Candidate → Option VertexCache × Except ErrorCode (List Candidate)
  | cache, [] => (cache, .ok [])
  | cache, hit :: rest =>
    match scope.entityRow part cache hit.entity with
    | (cache, .error code) => (cache, .error code)
    | (cache, .ok raw) =>
      let (cache, others) := scope.join part schema cache rest
      (cache, others.map ((joined? schema hit raw).toList ++ ·))

end QueryScope

namespace Flow

/-- The hits of the only input. -/
def onlyCandidates : List Flow → Except ErrorCode (List Candidate)
  | [candidates hits] => .ok hits
  | _ => .error .invalidOperation

/-- The rows of an input. -/
def getRows : Flow → Except ErrorCode (List Row)
  | rows found => .ok found
  | candidates _ => .error .invalidOperation

end Flow

/-- Runs an operator on one partition. -/
def Operator.run (scope : QueryScope) (part : PartId) (cache : Option VertexCache)
    (op : Operator) (inputs : List Flow) : Option VertexCache × Except ErrorCode Flow :=
  match op with
  | scan layout hints => (cache, (scope.scan part layout hints).map .candidates)
  | join _ schema =>
    match Flow.onlyCandidates inputs with
    | .error code => (cache, .error code)
    | .ok hits =>
      let (cache, result) := scope.join part schema cache hits
      (cache, result.map .candidates)
  | filter condition source =>
    (cache, (Flow.onlyCandidates inputs).map fun hits =>
      .candidates (hits.filter fun hit => condition.holds (hit.filterValue? source)))
  | output layout columns =>
    (cache, (Flow.onlyCandidates inputs).map fun hits =>
      .rows (hits.map (Candidate.output layout columns)))
  | aggregate =>
    (cache, (inputs.mapM Flow.getRows).map fun branches => .rows branches.flatten)

end GraphStore
