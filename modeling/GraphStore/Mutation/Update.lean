import GraphStore.Mutation.Batch
import GraphStore.Filter.Text

/-!
# Updating a vertex

One tag row of a vertex is read, checked against a condition, changed property by property and
written back, together with its index entries, in one atomic write. The write also removes the
index entries of the old row that the new row does not have. A missing row may be inserted; it
then starts from the schema's defaults, and the condition is not asked.
-/

namespace GraphStore

/-- First column of the properties returned by an update: whether the row was inserted. -/
def insertedColumn : String := "_inserted"

namespace UpdateVertex

/-- What an update comes to. -/
inductive Prepared where
  /-- The condition does not hold of the row with these properties. -/
  | filtered (props : Props)
  /-- The row is written with these properties. -/
  | write (removes : List Bytes) (puts : List Entry) (props : Props) (inserted : Bool)
  deriving DecidableEq, Repr, Inhabited

/-- What an expression sees: the properties, and the id of the vertex. -/
def lookup (req : UpdateVertex) (props : Props) (name : String) : Option Value :=
  if name = vidProperty then some (.str req.vertex) else props.get? name

/-- Whether the request names only properties of the schema and the id of the vertex. -/
def namesKnown (req : UpdateVertex) (schema : Schema) : Bool :=
  (req.updates.map (·.name) ++ req.returnProps).all fun name =>
    name = vidProperty || (schema.field? name).isSome

/-- The condition, if there is one. -/
def decodedCondition (req : UpdateVertex) : Except ErrorCode (Option Expr) :=
  if req.condition.isEmpty then .ok none
  else
    match Expr.decode? req.condition with
    | some condition => .ok (some condition)
    | none => .error .invalidFilter

/-- The properties of a stored row. -/
def readProps (schema : Schema) (raw : Bytes) : Except ErrorCode Props :=
  match Row.decode schema raw with
  | .ok row => .ok (Props.ofRow schema row)
  | .error _ => .error .unknown

/-- The properties of the stored row, or none when a missing row may be inserted. -/
def storedProps (req : UpdateVertex) (node : Node) (schema : Schema) (key : Bytes) :
    Except ErrorCode (Option Props) :=
  match node.get req.space req.part key with
  | .error code => .error code.toErrorCode
  | .ok (some raw) => (readProps schema raw).map some
  | .ok none => if req.insertable then .ok none else .error .vertexNotFound

/-- The properties that an inserted row starts from. -/
def defaults (schema : Schema) : Props :=
  Props.ofPairs (schema.columns.filterMap fun column =>
    column.default.map fun value => (column.name, value))

/-- Applies updates from left to right, each with the earlier ones applied. -/
def applyUpdates (req : UpdateVertex) (props : Props) : Props :=
  req.updates.foldl (fun props update =>
    props.set update.name (update.value.eval (req.lookup props))) props

/-- The stored form of properties: those of the schema's columns, by name. -/
def encodeProps (schema : Schema) (props : Props) : Except ErrorCode Bytes :=
  let given := schema.columns.filterMap fun column =>
    (props.get? column.name).map fun value => (column.name, value)
  encodeRow schema (given.map (·.1)) (given.map (·.2)) (·.toErrorCode false)

/-- The row to be written for changed properties. The properties are read back from the row, so
that defaults and conversions show. -/
def changedRow (req : UpdateVertex) (layout : SpaceLayout) (schema : Schema) (key : Bytes)
    (old : Option Props) (props : Props) : Except ErrorCode Prepared := do
  let row ← encodeProps schema props
  let props ← readProps schema row
  let keysOf := fun props => Index.entryKeys layout.vidLen req.part (.tag req.tag)
    (.vertex req.vertex) props layout.indexes
  let keys ← keysOf props
  let oldKeys ← match old with
    | some old => keysOf old
    | none => pure []
  return .write (oldKeys.filter fun key => !keys.contains key) ((key, row) :: indexEntries keys)
    props old.isNone

/-- Reads and changes the row. -/
def prepare (req : UpdateVertex) (node : Node) : Except ErrorCode Prepared := do
  let vidLen ← match node.catalog.vidLen req.space with
    | .ok vidLen => pure vidLen
    | .error _ => throw .invalidSpaceVidLen
  let schema ← node.schemaOr req.space (.tag req.tag) .tagNotFound
  if !req.namesKnown schema then throw .tagPropNotFound
  let condition ← req.decodedCondition
  let layout ← match node.catalog.indexes req.space false with
    | .ok indexes => pure { vidLen, indexes : SpaceLayout }
    | .error _ => throw .spaceNotFound
  let key ← Key.vertex vidLen req.part req.vertex req.tag
  let old ← req.storedProps node schema key
  match old, condition with
  | some props, some condition =>
    if condition.holds (req.lookup props) then
      req.changedRow layout schema key old (req.applyUpdates props)
    else return .filtered props
  | _, _ =>
    req.changedRow layout schema key old (req.applyUpdates (old.getD (defaults schema)))

/-- The properties asked for. -/
def returned (req : UpdateVertex) (inserted : Bool) (props : Props) : DataSet where
  columns := insertedColumn :: req.returnProps
  rows := [.bool inserted ::
    req.returnProps.map fun name => (req.lookup props name).getD .null]

end UpdateVertex

/-- Updates a vertex. A cached row is forgotten before it is written. -/
def Node.updateVertex (node : Node) (req : UpdateVertex) : Node × UpdateResponse :=
  match req.prepare node with
  | .error code =>
    let (node, result) := ((Session.start node req.space 1).report req.part code).finish
    (node, { result })
  | .ok (.filtered props) =>
    let (node, result) := ((Session.start node req.space 1).report req.part .filterOut).finish
    (node, { result, props := some (req.returned false props) })
  | .ok (.write removes puts props inserted) =>
    let node := node.evict [{ space := req.space, vid := req.vertex, tag := req.tag }]
    let session := (Session.start node req.space 1).perform req.part (.replace removes puts)
    let (node, result) := session.finish
    (node, {
      result
      props := if result.succeeded then some (req.returned inserted props) else none })

end GraphStore
