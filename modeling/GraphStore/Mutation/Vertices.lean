import GraphStore.Mutation.Batch

/-!
# Inserting and deleting vertices

Inserting puts, for each partition, the tag rows of its vertices with their index entries in one
batch. Deleting removes the key range of each vertex, and with one more write the index entries
of the rows that are stored there. Both forget the cached rows they touch, also when the
partition's work then cannot be prepared.
-/

namespace GraphStore

/-- A row to be written under one tag of a vertex. -/
structure TagItem where
  vid : VertexId
  tag : TagId
  props : List Value
  deriving DecidableEq, Repr, Inhabited

/-- The rows of vertices one after another. -/
def TagItem.ofVertices (vertices : List NewVertex) : List TagItem :=
  vertices.flatMap fun v => v.tags.map fun t => { vid := v.id, tag := t.tag, props := t.props }

namespace AddVertices

/-- The names of the properties given for a tag; none stand for the columns in order. -/
def namesOf (req : AddVertices) (tag : TagId) : List String := (req.propNames[tag]?).getD []

/-- The entry of a tag row. -/
def rowEntry (req : AddVertices) (node : Node) (layout : SpaceLayout) (part : PartId)
    (item : TagItem) : Except ErrorCode Entry := do
  let schema ← node.schemaOr req.space (.tag item.tag) .tagNotFound
  let row ← encodeRow schema (req.namesOf item.tag) item.props (·.toErrorCode false)
  let key ← Key.vertex layout.vidLen part item.vid item.tag
  return (key, row)

/-- The entries of a tag row: the row, then its index entries. -/
def entries (req : AddVertices) (node : Node) (layout : SpaceLayout) (part : PartId)
    (item : TagItem) : Except ErrorCode (List Entry) := do
  let row ← req.rowEntry node layout part item
  let schema ← node.schemaOr req.space (.tag item.tag) .tagNotFound
  let keys ← Index.entryKeys layout.vidLen part (.tag item.tag) (.vertex item.vid)
    (Props.ofGiven schema (req.namesOf item.tag) item.props) layout.indexes
  return row :: indexEntries keys

/-- The work of one partition: one put of everything. -/
def prepare (req : AddVertices) (node : Node) (layout : SpaceLayout) (part : PartId)
    (vertices : List NewVertex) : Except ErrorCode (List WorkUnit) := do
  let batches ← (TagItem.ofVertices vertices).mapM (req.entries node layout part)
  return [.write part (.put batches.flatten)]

/-- The rows forgotten by the cache: those written up to the first failure, and the failing one
if only its index entries failed. -/
def evicted (req : AddVertices) (node : Node) (layout : SpaceLayout) (part : PartId)
    (vertices : List NewVertex) : List CacheKey :=
  let reached := takeThrough (fun item => (req.entries node layout part item).isOk)
    (TagItem.ofVertices vertices)
  (reached.filter fun item => (req.rowEntry node layout part item).isOk).map fun item =>
    { space := req.space, vid := item.vid, tag := item.tag }

end AddVertices

namespace Node

/-- Inserts vertices. -/
def addVertices (node : Node) (req : AddVertices) : Node × Response :=
  let layout := node.layout req.space false
  let units := unitsOf layout req.parts (req.prepare node)
  let node :=
    if node.cache.isSome then node.evict (gather layout req.parts (req.evicted node)) else node
  node.runUnits req.space units

end Node

namespace DeleteVertices

/-- The tag rows among the entries of a vertex. -/
def tagRows (vidLen : Nat) (stored : List Entry) : List (TagId × Bytes) :=
  stored.filterMap fun (key, row) => (Key.tagOfVertex? vidLen key).map fun tag => (tag, row)

/-- The stored rows of a vertex. They are read only if something hangs on them: index entries or
cached rows. -/
def storedRows (req : DeleteVertices) (node : Node) (layout : SpaceLayout) (part : PartId)
    (stem : Bytes) : Except ErrorCode (List (TagId × Bytes)) :=
  if layout.indexes.isEmpty && node.cache.isNone then .ok []
  else
    match node.scan req.space part stem with
    | .ok stored => .ok (tagRows layout.vidLen stored)
    | .error code => .error code.toErrorCode

/-- The index keys of a stored row; none for a row of an unknown tag or one that cannot be
read. -/
def indexKeys (req : DeleteVertices) (node : Node) (layout : SpaceLayout) (part : PartId)
    (vid : VertexId) (row : TagId × Bytes) : Except ErrorCode (List Bytes) :=
  match node.catalog.schema? req.space (.tag row.1) with
  | none => .ok []
  | some schema =>
    match Row.decode schema row.2 with
    | .error _ => .ok []
    | .ok values => Index.entryKeys layout.vidLen part (.tag row.1) (.vertex vid)
        (Props.ofRow schema values) layout.indexes

/-- What is removed with a vertex: all keys with this stem, and these index keys. -/
def removal (req : DeleteVertices) (node : Node) (layout : SpaceLayout) (part : PartId)
    (vid : VertexId) : Except ErrorCode (Bytes × List Bytes) := do
  let stem ← Key.vertexStem layout.vidLen part vid
  let rows ← req.storedRows node layout part stem
  let keys ← rows.mapM (req.indexKeys node layout part vid)
  return (stem, keys.flatten)

/-- The work of one partition: a range per vertex, then the index keys of all of them. -/
def prepare (req : DeleteVertices) (node : Node) (layout : SpaceLayout) (part : PartId)
    (vids : List VertexId) : Except ErrorCode (List WorkUnit) := do
  let removals ← vids.mapM (req.removal node layout part)
  let ranges := removals.map fun (stem, _) =>
    WorkUnit.write part (.removeRange stem (Key.upperBound stem))
  let keys := removals.flatMap (·.2)
  return if keys.isEmpty then ranges else ranges ++ [.write part (.remove keys)]

/-- The rows of one vertex forgotten by the cache, up to the first whose index keys fail. -/
def evictedOf (req : DeleteVertices) (node : Node) (layout : SpaceLayout) (part : PartId)
    (vid : VertexId) : List CacheKey :=
  match (Key.vertexStem layout.vidLen part vid).bind (req.storedRows node layout part) with
  | .error _ => []
  | .ok rows =>
    (takeThrough (fun row => (req.indexKeys node layout part vid row).isOk) rows).map
      fun (tag, _) => { space := req.space, vid, tag }

/-- The rows forgotten by the cache, up to the first failure. -/
def evicted (req : DeleteVertices) (node : Node) (layout : SpaceLayout) (part : PartId)
    (vids : List VertexId) : List CacheKey :=
  (takeThrough (fun vid => (req.removal node layout part vid).isOk) vids).flatMap
    (req.evictedOf node layout part)

end DeleteVertices

namespace Node

/-- Deletes vertices. -/
def deleteVertices (node : Node) (req : DeleteVertices) : Node × Response :=
  let layout := node.layout req.space false
  let units := unitsOf layout req.parts (req.prepare node)
  let node :=
    if node.cache.isSome then node.evict (gather layout req.parts (req.evicted node)) else node
  node.runUnits req.space units

end Node

end GraphStore
