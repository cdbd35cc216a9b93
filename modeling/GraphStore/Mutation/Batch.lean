import GraphStore.Fanout.Session
import GraphStore.Key.IndexEntries
import GraphStore.Row.Codec

/-!
# Batches of a mutation

A mutation first looks up the width of vertex ids and the indexes of its space, then prepares its
work for each partition on its own. A partition whose preparation fails reports the failure and
writes nothing.
-/

namespace GraphStore

/-- What a mutation needs to know of a space. -/
structure SpaceLayout where
  vidLen : Nat
  indexes : List Index
  deriving DecidableEq, Repr, Inhabited

/-- Looks up the layout of a space, with its indexes over tags or over edge types. -/
def Node.layout (node : Node) (space : SpaceId) (onEdges : Bool) :
    Except ErrorCode SpaceLayout :=
  match node.catalog.vidLen space, node.catalog.indexes space onEdges with
  | .error _, _ => .error .invalidSpaceVidLen
  | .ok _, .error _ => .error .spaceNotFound
  | .ok vidLen, .ok indexes => .ok { vidLen, indexes }

/-- A schema that has to be there. -/
def Node.schemaOr (node : Node) (space : SpaceId) (ref : SchemaRef) (missing : ErrorCode) :
    Except ErrorCode Schema :=
  match node.catalog.schema? space ref with
  | some schema => .ok schema
  | none => .error missing

/-- Index entries to be put, which hold nothing but their keys. -/
def indexEntries (keys : List Bytes) : List Entry := keys.map fun key => (key, [])

/-- The stored form of a row that a request gives; a fault is told to the client as a code. -/
def encodeRow (schema : Schema) (names : List String) (values : List Value)
    (tell : RowFault → ErrorCode) : Except ErrorCode Bytes :=
  match Row.encode schema names values with
  | .ok row => .ok row
  | .error fault => .error (tell fault)

/-- The work of one partition: what was prepared, or the failure to prepare it. -/
def unitsOr (part : PartId) : Except ErrorCode (List WorkUnit) → List WorkUnit
  | .ok units => units
  | .error code => [.report part code]

/-- The work of every partition of a request. Without a layout, all of them fail alike. -/
def unitsOf (layout : Except ErrorCode SpaceLayout) (parts : PartMap α)
    (prepare : SpaceLayout → PartId → α → Except ErrorCode (List WorkUnit)) : List WorkUnit :=
  parts.toList.flatMap fun (part, items) =>
    unitsOr part (layout.bind fun layout => prepare layout part items)

/-- What every partition of a request adds to a list; nothing without a layout. -/
def gather (layout : Except ErrorCode SpaceLayout) (parts : PartMap α)
    (add : SpaceLayout → PartId → α → List β) : List β :=
  match layout with
  | .ok layout => parts.toList.flatMap fun (part, items) => add layout part items
  | .error _ => []

/-- The elements up to the first that fails the test, which is included. -/
def takeThrough (p : α → Bool) : List α → List α
  | [] => []
  | a :: rest => if p a then a :: takeThrough p rest else [a]

end GraphStore
