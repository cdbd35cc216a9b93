import GraphStore.Query.Plan
import GraphStore.Proofs.Query.Order

/-!
# Execution of plans that are built node by node

A call that adds a node is refused when the node depends on one that is not there yet, so in every
plan built by such calls nodes depend on earlier ones only. They are executed in the order in which
they were added, and no node is ever left with less than no dependencies.
-/

namespace GraphStore

namespace Order

variable {deps : List (List Nat)}

namespace Progress

/-- One dependency of a node is done, provided that one is left. -/
def settle? (p : Progress) (id : Nat) : Option Progress :=
  if 0 < p.left id then some (p.settle id) else none

/-- A node can be settled as often as it has dependencies left. -/
theorem foldlM_settle? {p : Progress} {ids : List Nat} (h : ∀ id, ids.count id ≤ p.left id) :
    ids.foldlM settle? p = some (ids.foldl settle p) := by
  induction ids generalizing p with
  | nil => rfl
  | cons id ids ih =>
    have hid : 0 < p.left id := by
      have hcount := h id
      rw [List.count_cons_self] at hcount
      omega
    rw [List.foldlM_cons, settle?, if_pos hid, Option.bind_eq_bind, Option.bind_some,
      List.foldl_cons]
    apply ih
    intro other
    have hcount := h other
    rw [List.count_cons] at hcount
    rw [left_settle]
    split
    · next heq =>
      rw [if_pos (beq_iff_eq.2 heq.symm)] at hcount
      omega
    · omega

/-- A checked run of settlements ends where the unchecked one does. -/
theorem foldl_of_foldlM_settle? {p next : Progress} {ids : List Nat}
    (h : ids.foldlM settle? p = some next) : ids.foldl settle p = next := by
  induction ids generalizing p with
  | nil => exact Option.some.inj h
  | cons id ids ih =>
    rw [List.foldlM_cons, settle?] at h
    split at h
    · exact ih h
    · cases h

end Progress

/-- From this progress nodes come in this order: each is the lowest of those ready, every node that
depends on it loses one of the dependencies it has left, and at the end none is ready. -/
inductive Drains (deps : List (List Nat)) : Progress → List Nat → Prop
  | done {p : Progress} (hready : p.ready = []) : Drains deps p []
  | step {p next : Progress} {id : Nat} {ready order : List Nat} (hready : p.ready = id :: ready)
      (hsettle : (dependents deps id).foldlM Progress.settle? { p with ready } = some next)
      (hrest : Drains deps next order) : Drains deps p (id :: order)

/-- Nodes can come in one order only, which fuel for all of them finds. -/
theorem Drains.run_eq {p : Progress} {order : List Nat} (h : Drains deps p order) {fuel : Nat}
    (hfuel : order.length ≤ fuel) : run deps fuel p = order := by
  induction h generalizing fuel with
  | done hready =>
    cases fuel with
    | zero => rfl
    | succ fuel => rw [run, hready]
  | step hready hsettle hrest ih =>
    obtain ⟨fuel, rfl⟩ := Nat.exists_eq_succ_of_ne_zero
      (Nat.ne_of_gt (Nat.lt_of_lt_of_le (Nat.succ_pos _) hfuel))
    rw [run, hready]
    dsimp only
    rw [Progress.foldl_of_foldlM_settle? hsettle, ih (Nat.le_of_succ_le_succ hfuel)]

namespace Progress

/-- Before node `k` comes, the nodes that name it have a dependency left for each time they do. -/
theorem Before.foldlM_settle? {k : Nat} {p : Progress} (h : Before deps k p) (ready : List Nat) :
    (dependents deps k).foldlM settle? { p with ready } =
      some ((dependents deps k).foldl settle { p with ready }) := by
  apply Progress.foldlM_settle?
  intro id
  have hleft : left { p with ready } id = _ := h.counts id
  rw [hleft, countP_eq_add, count_dependents]
  exact Nat.le_add_right _ _

/-- After the last node none is ready. -/
theorem Before.ready_eq_nil {p : Progress} (h : Before deps deps.length p) : p.ready = [] := by
  refine List.eq_nil_iff_forall_not_mem.2 fun id hready => ?_
  obtain ⟨hle, hlt, -⟩ := (h.mem_ready id).1 hready
  omega

/-- Nodes come in the order of their numbers until all have come. -/
theorem Before.drains {k n : Nat} {p : Progress} (h : Before deps k p) (hforward : Forward deps)
    (hn : k + n = deps.length) : Drains deps p (List.range' k n) := by
  induction n generalizing k p with
  | zero =>
    obtain rfl : k = deps.length := hn
    exact .done h.ready_eq_nil
  | succ n ih =>
    obtain ⟨ready, hready, hnext⟩ := h.next hforward (by omega)
    exact .step hready (h.foldlM_settle? ready) (ih hnext (by omega))

end Progress

/-- Nodes that only depend on earlier ones are all taken, each time with a dependency left to
take from those that name it. -/
theorem Forward.drains (h : Forward deps) : Drains deps (.start deps) (ofDependencies deps) := by
  rw [ofDependencies_eq_range h, List.range_eq_range']
  exact (Progress.before_start deps).drains h (Nat.zero_add _)

/-- Another node may follow, provided that it depends on those that are there. -/
theorem Forward.concat (h : Forward deps) {ds : List Nat} (hds : ∀ dep ∈ ds, dep < deps.length) :
    Forward (deps ++ [ds]) := by
  intro id dep hdep
  rcases Nat.lt_trichotomy id deps.length with hlt | rfl | hgt
  · rw [depsOf, List.getD_append _ _ _ _ hlt] at hdep
    exact h id dep hdep
  · rw [depsOf, List.getD_append_right _ _ _ _ (Nat.le_refl _), Nat.sub_self] at hdep
    exact hds dep hdep
  · have hlength := lt_length_of_mem hdep
    rw [List.length_append, List.length_singleton] at hlength
    omega

end Order

namespace Plan

/-- The dependencies of all nodes, in the order of their numbers. -/
def depLists (plan : Plan) : List (List Nat) := plan.nodes.map (·.deps)

/-- The plan after a call that adds a node; a refused call leaves it as it is. -/
def added (plan : Plan) (operator : Operator) (deps : List Nat) : Plan :=
  match plan.addNode operator deps with
  | .ok (plan, _) => plan
  | .error _ => plan

/-- The plan after calls that add nodes. -/
def addAll (plan : Plan) (calls : List (Operator × List Nat)) : Plan :=
  calls.foldl (fun plan (operator, deps) => plan.added operator deps) plan

/-- The dependencies of a node are those that the order of execution goes by. -/
theorem dependencies_eq_depsOf (plan : Plan) (id : Nat) :
    plan.dependencies id = Order.depsOf plan.depLists id := by
  rw [dependencies, Order.depsOf, depLists, List.getD_eq_getElem?_getD, List.getElem?_map]
  cases plan.nodes[id]? <;> rfl

/-- A node is added when it only depends on nodes that are there. -/
theorem depLists_added (plan : Plan) (operator : Operator) (deps : List Nat) :
    (plan.added operator deps).depLists =
      if ∀ dep ∈ deps, dep < plan.nodes.length then plan.depLists ++ [deps]
      else plan.depLists := by
  have hany : deps.any (plan.nodes.length ≤ ·) = true ↔ ¬ ∀ dep ∈ deps, dep < plan.nodes.length := by
    simp
  rw [added, addNode]
  by_cases h : ∀ dep ∈ deps, dep < plan.nodes.length
  · rw [if_neg (fun hrefused => hany.1 hrefused h), if_pos h]
    simp [depLists]
  · rw [if_pos (hany.2 h), if_neg h]

/-- Calls that add nodes, accepted or refused, keep nodes depending on earlier ones. -/
theorem forward_addAll {plan : Plan} (h : Order.Forward plan.depLists)
    (calls : List (Operator × List Nat)) : Order.Forward (plan.addAll calls).depLists := by
  induction calls generalizing plan with
  | nil => exact h
  | cons call calls ih =>
    obtain ⟨operator, deps⟩ := call
    refine ih ?_
    rw [depLists_added]
    split
    · next hdeps =>
      have hlength : plan.depLists.length = plan.nodes.length := List.length_map _
      exact h.concat (hlength ▸ hdeps)
    · exact h

/-- In a plan built by calls that add nodes, accepted or refused, the order of execution has every
node once, after all those it depends on. It is the order in which nodes were added, and a node
that loses a dependency always has one left. -/
theorem executionOrder_addAll (columns : List String) (calls : List (Operator × List Nat)) :
    let plan := (Plan.new columns).addAll calls
    (∀ id, id ∈ plan.executionOrder ↔ id < plan.nodes.length) ∧
      plan.executionOrder.Nodup ∧
      (∀ id, ∀ dep ∈ plan.dependencies id,
        plan.executionOrder.idxOf dep < plan.executionOrder.idxOf id) ∧
      plan.executionOrder = List.range plan.nodes.length ∧
      Order.Drains plan.depLists (.start plan.depLists) plan.executionOrder := by
  intro plan
  have hempty : Order.Forward (Plan.new columns).depLists := fun _ _ hdep =>
    absurd (Order.lt_length_of_mem hdep) (Nat.not_lt_zero _)
  have hforward : Order.Forward plan.depLists := forward_addAll hempty calls
  have hlength : plan.depLists.length = plan.nodes.length := List.length_map _
  have horder : plan.executionOrder = List.range plan.nodes.length := by
    rw [← hlength]
    exact Order.ofDependencies_eq_range hforward
  refine ⟨?mem, ?once, ?after, horder, hforward.drains⟩
  case mem =>
    intro id
    rw [horder, List.mem_range]
  case once =>
    rw [horder]
    exact List.nodup_range
  case after =>
    intro id dep hdep
    rw [dependencies_eq_depsOf] at hdep
    have hid : id < plan.nodes.length := hlength ▸ Order.lt_length_of_mem hdep
    have hlt : dep < id := hforward id dep hdep
    have hidx (node : Nat) (hnode : node < plan.nodes.length) :
        (List.range plan.nodes.length).idxOf node = node := by
      have hget := List.nodup_range.idxOf_getElem node (by rwa [List.length_range])
      rwa [List.getElem_range] at hget
    rw [horder, hidx dep (by omega), hidx id hid]
    exact hlt

/-- A refused call and a dependency that is named twice do not disturb the order: three nodes are
executed, the second after the one that it names twice. -/
theorem executionOrder_of_repeated_dependency :
    let plan := (Plan.new ["_vid"]).addAll
      [(.aggregate, []), (.aggregate, [1]), (.aggregate, [0, 0]), (.aggregate, [1, 0])]
    plan.nodes.length = 3 ∧ 0 ∈ plan.dependencies 1 ∧ plan.executionOrder = [0, 1, 2] ∧
      plan.executionOrder.idxOf 0 < plan.executionOrder.idxOf 1 ∧
      Order.Drains plan.depLists (.start plan.depLists) plan.executionOrder := by
  intro plan
  obtain ⟨-, -, hafter, horder, hdrains⟩ := executionOrder_addAll ["_vid"]
    [(.aggregate, []), (.aggregate, [1]), (.aggregate, [0, 0]), (.aggregate, [1, 0])]
  have hdep : 0 ∈ plan.dependencies 1 := by decide
  exact ⟨rfl, hdep, horder, hafter 1 0 hdep, hdrains⟩

end Plan

end GraphStore
