import GraphStore.Query.Operator
import GraphStore.Query.Order

/-!
# Lookup plans

A plan is a list of operators, each with the operators it depends on; an operator can only depend
on earlier ones. Running a plan on a partition executes every operator on the outputs of its
dependencies, and stops at the first that fails. Rows reach the plan's data through aggregates,
and stay there when a later operator fails or the plan is run again.
-/

namespace GraphStore

/-- An operator of a plan with the numbers of those it depends on. -/
structure PlanNode where
  operator : Operator
  deps : List Nat
  deriving Repr, Inhabited

/-- A lookup plan. -/
structure Plan where
  nodes : List PlanNode := []
  data : DataSet := {}
  deriving Repr, Inhabited

namespace Plan

/-- An empty plan with the header of its data. -/
def new (columns : List String) : Plan where
  data := { columns }

/-- Adds an operator and answers its number. -/
def addNode (plan : Plan) (operator : Operator) (deps : List Nat) : Except ErrorCode (Plan × Nat) :=
  if deps.any (plan.nodes.length ≤ ·) then .error .invalidOperation
  else .ok ({ plan with nodes := plan.nodes ++ [{ operator, deps }] }, plan.nodes.length)

/-- The kind of an operator. -/
def kind? (plan : Plan) (id : Nat) : Option OperatorKind :=
  plan.nodes[id]?.map (·.operator.kind)

/-- The operators that an operator depends on. -/
def dependencies (plan : Plan) (id : Nat) : List Nat :=
  match plan.nodes[id]? with
  | some node => node.deps
  | none => []

/-- The kinds of all operators. -/
def kinds (plan : Plan) : List OperatorKind := plan.nodes.map (·.operator.kind)

/-- Kinds along single dependencies, from `id` back. Numbers fall along the way, so `id + 1` is
fuel enough. -/
def chainBack (plan : Plan) : (fuel : Nat) → (id : Nat) → List OperatorKind
  | 0, _ => []
  | fuel + 1, id =>
    match plan.nodes[id]? with
    | none => []
    | some node =>
      node.operator.kind ::
        match node.deps with
        | [dep] => plan.chainBack fuel dep
        | _ => []

/-- The kinds along the chain of single dependencies that ends at `id`, the first one first. -/
def branchKinds (plan : Plan) (id : Nat) : List OperatorKind :=
  (plan.chainBack (id + 1) id).reverse

/-- The order in which the operators are executed. -/
def executionOrder (plan : Plan) : List Nat :=
  Order.ofDependencies (plan.nodes.map (·.deps))

/-- The outputs of operators that have been executed, by number. -/
abbrev Outputs := List (Option Flow)

/-- The outputs of dependencies, which all have to be there. -/
def inputs (outputs : Outputs) (deps : List Nat) : Except ErrorCode (List Flow) :=
  deps.mapM fun dep =>
    match (outputs[dep]?).join with
    | some flow => .ok flow
    | none => .error .unknown

/-- The rows that an operator's output adds to the data. -/
def collected : Operator → Flow → List Row
  | .aggregate, .rows rows => rows
  | _, _ => []

/-- What a run leaves behind. -/
structure Run where
  cache : Option VertexCache
  /-- Rows added to the data. -/
  rows : List Row
  result : Except ErrorCode Unit

/-- Executes one operator. -/
def execute (scope : QueryScope) (part : PartId) (node : PlanNode) (outputs : Outputs)
    (cache : Option VertexCache) : Option VertexCache × Except ErrorCode Flow :=
  match inputs outputs node.deps with
  | .error code => (cache, .error code)
  | .ok inputs => node.operator.run scope part cache inputs

/-- Executes operators in the given order. -/
def runInOrder (scope : QueryScope) (part : PartId) (plan : Plan) :
    (order : List Nat) → Outputs → Option VertexCache → (rows : List Row) → Run
  | [], _, cache, rows => { cache, rows, result := .ok () }
  | id :: order, outputs, cache, rows =>
    match plan.nodes[id]? with
    | none => { cache, rows, result := .error .unknown }
    | some node =>
      match execute scope part node outputs cache with
      | (cache, .error code) => { cache, rows, result := .error code }
      | (cache, .ok flow) =>
        runInOrder scope part plan order (outputs.set id (some flow)) cache
          (rows ++ collected node.operator flow)

/-- Runs the plan on one partition. -/
def go (scope : QueryScope) (part : PartId) (plan : Plan) (cache : Option VertexCache) : Run :=
  plan.runInOrder scope part plan.executionOrder (plan.nodes.map fun _ => none) cache []

/-- The plan with rows added to its data. -/
def addRows (plan : Plan) (rows : List Row) : Plan :=
  { plan with data := { plan.data with rows := plan.data.rows ++ rows } }

end Plan

end GraphStore
