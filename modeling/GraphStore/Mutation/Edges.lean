import GraphStore.Mutation.Batch

/-!
# Inserting and deleting edges

Inserting puts, for each partition, the edge rows with their index entries in one batch. Deleting
removes, for each partition in one write, the edge keys and the index entries of the rows that
are stored there.
-/

namespace GraphStore

namespace AddEdges

/-- The entries of an edge: the row, then its index entries. -/
def entries (req : AddEdges) (node : Node) (layout : SpaceLayout) (part : PartId)
    (edge : NewEdge) : Except ErrorCode (List Entry) := do
  let owner := SchemaRef.edge edge.key.edgeType
  let schema ← node.schemaOr req.space owner .edgeNotFound
  let row ← encodeRow schema req.propNames edge.props (·.toErrorCode true)
  let key ← Key.edge layout.vidLen part edge.key
  let keys ← Index.entryKeys layout.vidLen part owner (.edge edge.key)
    (Props.ofGiven schema req.propNames edge.props) layout.indexes
  return (key, row) :: indexEntries keys

/-- The work of one partition: one put of everything. -/
def prepare (req : AddEdges) (node : Node) (layout : SpaceLayout) (part : PartId)
    (edges : List NewEdge) : Except ErrorCode (List WorkUnit) := do
  let batches ← edges.mapM (req.entries node layout part)
  return [.write part (.put batches.flatten)]

end AddEdges

namespace DeleteEdges

/-- The index keys of the row stored for an edge; none when there is no row, its edge type is
unknown, or it cannot be read. -/
def indexKeys (req : DeleteEdges) (node : Node) (layout : SpaceLayout) (part : PartId)
    (edge : EdgeKey) (key : Bytes) : Except ErrorCode (List Bytes) :=
  if layout.indexes.isEmpty then .ok []
  else
    match node.get req.space part key, node.catalog.schema? req.space (.edge edge.edgeType) with
    | .error code, _ => .error code.toErrorCode
    | .ok none, _ => .ok []
    | .ok (some _), none => .ok []
    | .ok (some raw), some schema =>
      match Row.decode schema raw with
      | .error _ => .ok []
      | .ok values => Index.entryKeys layout.vidLen part (.edge edge.edgeType) (.edge edge)
          (Props.ofRow schema values) layout.indexes

/-- The keys removed with an edge: its index keys, then its own. -/
def removal (req : DeleteEdges) (node : Node) (layout : SpaceLayout) (part : PartId)
    (edge : EdgeKey) : Except ErrorCode (List Bytes) := do
  let key ← Key.edge layout.vidLen part edge
  let keys ← req.indexKeys node layout part edge key
  return keys ++ [key]

/-- The work of one partition: one removal of everything. -/
def prepare (req : DeleteEdges) (node : Node) (layout : SpaceLayout) (part : PartId)
    (edges : List EdgeKey) : Except ErrorCode (List WorkUnit) := do
  let keys ← edges.mapM (req.removal node layout part)
  return [.write part (.remove keys.flatten)]

end DeleteEdges

namespace Node

/-- Inserts edges. -/
def addEdges (node : Node) (req : AddEdges) : Node × Response :=
  node.runUnits req.space (unitsOf (node.layout req.space true) req.parts (req.prepare node))

/-- Deletes edges. -/
def deleteEdges (node : Node) (req : DeleteEdges) : Node × Response :=
  node.runUnits req.space (unitsOf (node.layout req.space true) req.parts (req.prepare node))

end Node

end GraphStore
