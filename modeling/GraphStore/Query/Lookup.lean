import GraphStore.Query.Branch
import GraphStore.Fanout.Session

/-!
# Looking up rows

A lookup runs its plan on every requested partition and puts the rows together in ascending order
of the partitions, up to the node's bound. A partition on which the plan fails is reported, and
the others are answered all the same. A lookup whose plan cannot be built is refused as a whole.
-/

namespace GraphStore

/-- The rows that a plan finds on one partition, or why it fails there. -/
structure PartRows where
  part : PartId
  outcome : Except ErrorCode (List Row)

/-- The code reported for a partition. -/
def PartRows.code (result : PartRows) : ErrorCode :=
  match result.outcome with
  | .ok _ => .succeeded
  | .error code => code

namespace Lookup

/-- What the operators of the lookup's plan read. -/
def scope (req : Lookup) (node : Node) (vidLen : Nat) : QueryScope where
  node
  space := req.space
  vidLen
  schemaId := req.indices.schemaId

/-- The plan, with the width of vertex ids. -/
def plan (req : Lookup) (node : Node) : Except ErrorCode (Nat × Plan) := do
  let vidLen ← match node.catalog.vidLen req.space with
    | .ok vidLen => pure vidLen
    | .error _ => throw .invalidSpaceVidLen
  let plan ← Plan.build node.catalog req.space vidLen req.indices req.returnColumns
  return (vidLen, plan)

/-- Runs the plan on partitions one after another. -/
def runParts (scope : QueryScope) (plan : Plan) :
    Option VertexCache → List PartId → Option VertexCache × List PartRows
  | cache, [] => (cache, [])
  | cache, part :: rest =>
    let run := plan.go scope part cache
    let outcome := run.result.map fun _ => run.rows
    let (cache, others) := runParts scope plan run.cache rest
    (cache, { part, outcome } :: others)

/-- The rows of the partitions that succeeded, in ascending order of the partitions. -/
def merge (results : List PartRows) : List Row :=
  let byPart : PartMap (List Row) := results.foldl (fun found result =>
    match result.outcome with
    | .ok rows => found.insert result.part rows
    | .error _ => found) ∅
  (byPart.toList.map (·.2)).flatten

/-- Rows up to a bound; zero for no bound. -/
def limited (bound : Nat) (rows : List Row) : List Row :=
  if bound = 0 then rows else rows.take bound

end Lookup

namespace Node

/-- Carries out a lookup whose partitions complete in the given order. -/
def lookupInOrder (node : Node) (req : Lookup) (order : List PartId) : Node × LookupResponse :=
  let columns := resultColumns req.indices.isEdge req.returnColumns
  match req.plan node with
  | .error code =>
    let (node, result) := node.reportParts req.space (order.map fun part => (part, code))
    (node, { result := { result with requestCode := some code }, data := { columns } })
  | .ok (vidLen, plan) =>
    let (cache, results) := Lookup.runParts (req.scope node vidLen) plan node.cache order
    let node := { node with cache }
    let (node, result) := node.reportParts req.space
      (results.map fun found => (found.part, found.code))
    (node, {
      result
      data := { columns, rows := Lookup.limited node.config.lookupMaxRows (Lookup.merge results) } })

/-- Looks up rows. -/
def lookup (node : Node) (req : Lookup) : Node × LookupResponse :=
  node.lookupInOrder req req.parts

end Node

end GraphStore
