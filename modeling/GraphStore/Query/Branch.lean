import GraphStore.Query.Plan
import GraphStore.Filter.Text

/-!
# Building lookup plans

Every index query of a lookup becomes a branch: a scan, a join if some column asked for is not in
the index, a filter if one is given, and an output. All outputs feed one aggregate. Everything
that can fail is resolved before the first operator is added.
-/

namespace GraphStore

/-- The operators of a branch. -/
inductive BranchShape where
  | scanOutput
  | scanJoinOutput
  | scanFilterOutput
  | scanJoinFilterOutput
  deriving DecidableEq, Repr, Inhabited

/-- The shape for what a branch needs. -/
def BranchShape.of (needsData needsFilter : Bool) : BranchShape :=
  match needsData, needsFilter with
  | false, false => scanOutput
  | true, false => scanJoinOutput
  | false, true => scanFilterOutput
  | true, true => scanJoinFilterOutput

/-- A branch with everything resolved. -/
structure Branch where
  layout : IndexLayout
  hints : List ColumnHint
  /-- The schema of the rows to be joined. -/
  schema : Option Schema
  condition : Option Expr
  returnColumns : List String
  deriving Repr, Inhabited

namespace IndexQuery

/-- The index to be read, which has to be built over the tag or edge type looked up. -/
def resolve (query : IndexQuery) (catalog : Catalog) (space : SpaceId) (owner : SchemaRef) :
    Except ErrorCode Index :=
  match catalog.index space owner.isEdge query.index with
  | .error _ => .error .indexNotFound
  | .ok index => if index.owner = owner then .ok index else .error .indexNotFound

/-- Whether hints name the index columns in their order, and a range closes the list. -/
def hintsFit : List Column → List ColumnHint → Bool
  | _, [] => true
  | [], _ :: _ => false
  | column :: columns, hint :: hints =>
    column.name = hint.column &&
      (match hint.scan with
        | .range _ _ => hints.isEmpty
        | .equal _ => true) &&
      hintsFit columns hints

/-- The filter, if there is one. -/
def decodedFilter (query : IndexQuery) : Except ErrorCode (Option Expr) :=
  if query.filter.isEmpty then .ok none
  else
    match Expr.decode? query.filter with
    | some filter => .ok (some filter)
    | none => .error .invalidFilter

/-- The schema to join with, if a column asked for is not in the index. -/
def joinSchema (catalog : Catalog) (space : SpaceId) (owner : SchemaRef) (index : Index)
    (returnColumns : List String) : Except ErrorCode (Option Schema) :=
  if returnColumns.all index.covers then .ok none
  else
    match catalog.schema? space owner with
    | some schema => .ok (some schema)
    | none => .error (if owner.isEdge then .edgeNotFound else .tagNotFound)

/-- Resolves a query. -/
def branch (query : IndexQuery) (catalog : Catalog) (space : SpaceId) (vidLen : Nat)
    (owner : SchemaRef) (returnColumns : List String) : Except ErrorCode Branch := do
  let index ← query.resolve catalog space owner
  if !hintsFit index.columns query.hints then throw .invalidOperation
  let condition ← query.decodedFilter
  let schema ← joinSchema catalog space owner index returnColumns
  return {
    layout := { index, vidLen }
    hints := query.hints
    schema
    condition
    returnColumns }

end IndexQuery

namespace Branch

/-- What a branch needs. -/
def shape (branch : Branch) : BranchShape :=
  .of branch.schema.isSome branch.condition.isSome

/-- Where the branch's filter finds properties. -/
def source (branch : Branch) : FilterSource :=
  if branch.schema.isSome then .fullRow else .indexKey branch.layout

/-- The operators after the scan, each fed by the one before it. -/
def followers (branch : Branch) : List Operator :=
  (branch.schema.map (Operator.join branch.layout.isEdge)).toList ++
    (branch.condition.map fun condition => Operator.filter condition branch.source).toList ++
    [.output branch.layout branch.returnColumns]

/-- Adds operators, each fed by the one before it, and answers the last number. -/
def addChain (plan : Plan) (tail : Nat) : List Operator → Except ErrorCode (Plan × Nat)
  | [] => .ok (plan, tail)
  | operator :: rest => do
    let (plan, tail) ← plan.addNode operator [tail]
    addChain plan tail rest

/-- Adds the operators of a branch, and answers the number of its output. -/
def addTo (branch : Branch) (plan : Plan) : Except ErrorCode (Plan × Nat) := do
  let (plan, tail) ← plan.addNode (.scan branch.layout branch.hints) []
  addChain plan tail branch.followers

end Branch

namespace Plan

/-- Adds the branches of queries, and answers the numbers of their outputs. -/
def addBranches (catalog : Catalog) (space : SpaceId) (vidLen : Nat) (owner : SchemaRef)
    (returnColumns : List String) (plan : Plan) :
    List IndexQuery → Except ErrorCode (Plan × List Nat)
  | [] => .ok (plan, [])
  | query :: rest => do
    let branch ← query.branch catalog space vidLen owner returnColumns
    let (plan, output) ← branch.addTo plan
    let (plan, outputs) ← addBranches catalog space vidLen owner returnColumns plan rest
    return (plan, output :: outputs)

/-- The plan of a lookup. There has to be at least one query. -/
def build (catalog : Catalog) (space : SpaceId) (vidLen : Nat) (indices : IndexSpec)
    (returnColumns : List String) : Except ErrorCode Plan := do
  if indices.queries.isEmpty then throw .invalidOperation
  let owner := SchemaRef.of indices.isEdge indices.schemaId
  let (plan, outputs) ← addBranches catalog space vidLen owner returnColumns
    (.new (resultColumns indices.isEdge returnColumns)) indices.queries
  let (plan, _) ← plan.addNode .aggregate outputs
  return plan

end Plan

end GraphStore
