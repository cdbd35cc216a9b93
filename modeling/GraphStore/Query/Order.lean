/-!
# Order of execution

Nodes are numbered, and each lists the nodes it depends on. A node is ready when none of its
dependencies is left; of the ready nodes the lowest comes next.
-/

namespace GraphStore.Order

/-- The nodes that depend on `id`, in ascending order, each as often as it names it. -/
def dependents (deps : List (List Nat)) (id : Nat) : List Nat :=
  deps.zipIdx.flatMap fun (ds, i) => (ds.filter (· = id)).map fun _ => i

/-- Inserts a number into an ascending list, if it is not there. -/
def insert (id : Nat) : List Nat → List Nat
  | [] => [id]
  | first :: rest =>
    if id < first then id :: first :: rest
    else if id = first then first :: rest
    else first :: insert id rest

/-- Dependencies left of each node, and the ready nodes in ascending order. -/
structure Progress where
  remaining : List Nat
  ready : List Nat
  deriving DecidableEq, Repr, Inhabited

namespace Progress

/-- Nodes without dependencies are ready. -/
def start (deps : List (List Nat)) : Progress :=
  let remaining := deps.map List.length
  { remaining
    ready := (remaining.zipIdx.filter fun (count, _) => count = 0).map (·.2) }

/-- One dependency of a node is done; the last one makes the node ready. -/
def settle (p : Progress) (id : Nat) : Progress :=
  let left := p.remaining.getD id 0 - 1
  { remaining := p.remaining.set id left
    ready := if left = 0 then insert id p.ready else p.ready }

end Progress

/-- Takes ready nodes until none is left. Every node comes at most once, so their number is fuel
enough. -/
def run (deps : List (List Nat)) : (fuel : Nat) → Progress → List Nat
  | 0, _ => []
  | fuel + 1, p =>
    match p.ready with
    | [] => []
    | id :: ready =>
      id :: run deps fuel ((dependents deps id).foldl Progress.settle { p with ready })

/-- The order in which nodes with these dependencies are executed. -/
def ofDependencies (deps : List (List Nat)) : List Nat :=
  run deps deps.length (.start deps)

end GraphStore.Order
