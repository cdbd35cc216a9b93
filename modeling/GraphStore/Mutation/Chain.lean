import GraphStore.Mutation.Batch

/-!
# Splitting edges into chains

The edges of a partition are grouped by the partition of their destination; each group is a chain
from the one to the other. The batch of a chain has the rows of its edges, then their index
entries. A partition whose first bad edge cannot be prepared is failed as a whole and has no
chains.
-/

namespace GraphStore

/-- An edge ready to be written: the partition of its destination, its row and its index
entries. -/
structure ReadyEdge where
  target : PartId
  row : Entry
  indexEntries : List Entry
  deriving DecidableEq, Repr, Inhabited

/-- The rows of a chain, and apart from them its index entries. -/
structure Staged where
  rows : List Entry := []
  indexEntries : List Entry := []
  deriving DecidableEq, Repr, Inhabited

namespace Staged

/-- Puts an edge in front. -/
def cons (edge : ReadyEdge) (staged : Staged) : Staged where
  rows := edge.row :: staged.rows
  indexEntries := edge.indexEntries ++ staged.indexEntries

/-- Groups edges by destination. -/
def ofEdges (edges : List ReadyEdge) : PartMap Staged :=
  edges.foldr (fun edge staged =>
    staged.insert edge.target (((staged[edge.target]?).getD {}).cons edge)) ∅

/-- All rows, then all index entries. -/
def batch (staged : Staged) : List Entry := staged.rows ++ staged.indexEntries

end Staged

/-- The batch of a chain. -/
structure ChainBatch where
  chain : ChainId
  batch : List Entry
  deriving DecidableEq, Repr, Inhabited

/-- A request split into chains, in ascending order, and the partitions that failed. -/
structure ChainSplit where
  chains : List ChainBatch := []
  failed : List (PartId × ErrorCode) := []
  deriving DecidableEq, Repr, Inhabited

/-- The chains of a partition. -/
def AddEdges.chainsOf (part : PartId) (staged : PartMap Staged) : List ChainBatch :=
  staged.toList.map fun (target, staged) =>
    { chain := { source := part, target }, batch := staged.batch }

/-- What edges are prepared with: the placement of vertices, the schemas of edge types and the stored
form of rows. -/
structure EdgeContext where
  placement : Placement
  schema? : SpaceId → EdgeType → Option Schema
  encode : Schema → List String → List Value → Except RowFault Bytes

/-- A node prepares edges with its placement and its catalog, and stores their rows in the usual
form. -/
def Node.edgeContext (node : Node) : EdgeContext where
  placement := node.placement
  schema? space edgeType := node.catalog.schema? space (.edge edgeType)
  encode := Row.encode

namespace EdgeContext

/-- The partition of a destination. One without a partition counts as a missing space. -/
def target (context : EdgeContext) (space : SpaceId) (dst : VertexId) : Except ErrorCode PartId :=
  (context.placement.locate space dst).mapError fun _ => .spaceNotFound

/-- The schema of an edge type. An unknown one counts as a missing space. -/
def schema (context : EdgeContext) (space : SpaceId) (edgeType : EdgeType) :
    Except ErrorCode Schema :=
  match context.schema? space edgeType with
  | some schema => .ok schema
  | none => .error .spaceNotFound

/-- The stored row of an edge. Every fault in it is told to the client as the same code. -/
def row (context : EdgeContext) (schema : Schema) (names : List String) (props : List Value) :
    Except ErrorCode Bytes :=
  (context.encode schema names props).mapError fun _ => .dataTypeMismatch

/-- Prepares one edge. -/
def readyEdge (context : EdgeContext) (req : AddEdges) (layout : SpaceLayout) (part : PartId)
    (edge : NewEdge) : Except ErrorCode ReadyEdge := do
  let target ← context.target req.space edge.key.dst
  let schema ← context.schema req.space edge.key.edgeType
  let row ← context.row schema req.propNames edge.props
  let key ← Key.edge layout.vidLen part edge.key
  let keys ← Index.entryKeys layout.vidLen part (.edge edge.key.edgeType) (.edge edge.key)
    (Props.ofGiven schema req.propNames edge.props) layout.indexes
  return { target, row := (key, row), indexEntries := indexEntries keys }

/-- Prepares the edges of a partition and groups them by destination. -/
def stage (context : EdgeContext) (req : AddEdges) (layout : SpaceLayout) (part : PartId)
    (edges : List NewEdge) : Except ErrorCode (PartMap Staged) := do
  let ready ← edges.mapM (context.readyEdge req layout part)
  return Staged.ofEdges ready

/-- Adds one partition to a split. -/
def splitPart (context : EdgeContext) (req : AddEdges) (layout : SpaceLayout) (part : PartId)
    (edges : List NewEdge) (rest : ChainSplit) : ChainSplit :=
  match context.stage req layout part edges with
  | .ok staged => { rest with chains := AddEdges.chainsOf part staged ++ rest.chains }
  | .error code => { rest with failed := (part, code) :: rest.failed }

/-- Splits every partition's edges into chains. -/
def split (context : EdgeContext) (req : AddEdges) (layout : SpaceLayout) : ChainSplit :=
  req.parts.toList.foldr (fun (part, edges) rest => context.splitPart req layout part edges rest) {}

end EdgeContext

namespace AddEdges

/-- Prepares one edge on a node. -/
def readyEdge (req : AddEdges) (node : Node) (layout : SpaceLayout) (part : PartId)
    (edge : NewEdge) : Except ErrorCode ReadyEdge :=
  node.edgeContext.readyEdge req layout part edge

/-- Prepares the edges of a partition on a node and groups them by destination. -/
def stage (req : AddEdges) (node : Node) (layout : SpaceLayout) (part : PartId)
    (edges : List NewEdge) : Except ErrorCode (PartMap Staged) :=
  node.edgeContext.stage req layout part edges

/-- Splits every partition's edges into chains on a node. -/
def split (req : AddEdges) (node : Node) (layout : SpaceLayout) : ChainSplit :=
  node.edgeContext.split req layout

end AddEdges

end GraphStore
